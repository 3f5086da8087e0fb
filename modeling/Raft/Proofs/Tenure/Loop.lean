import Raft.Proofs.Node.Loop
import Raft.Proofs.Tenure.Leader

/-!
# The event loop and tenures

Role events are queued in few ways, and each finds the role that it is meant for: the change of role
it asks for is legal. So a work that comes up consists of deeds, tells the apply loop of a commit,
or is a step down.

* `Seat.Awaits voters x q`: the role events that can wait in a seat.
* `Tenure.Fit a`: the role events that wait fit the seat.
* `Worked src a b`: what a work makes of a tenure.
* `Work.run_works`: so it is with every work whose role events fit.
-/

namespace Raft

open Node (stepsDown)

/-! ## What can wait -/

/-- The role events that can wait in a seat. A step down can be asked for in any, and the request it
was asked for comes after it. -/
inductive Seat.Awaits (voters : Nat) : Seat → List RoleEvent → Prop
  | nothing (x : Seat) : Awaits voters x []
  | notice (x : Seat) (i : Nat) : Awaits voters x [.newCommit i]
  | retreat (x : Seat) (l : Option NodeId) : Awaits voters x [.becomeFollower l]
  | retry (x : Seat) (l : Option NodeId) (e : Event) (he : e.IsRequest) :
    Awaits voters x [.becomeFollower l, .replay e]
  | replay (e : Event) (he : e.IsRequest) : Awaits voters .follower [.replay e]
  | election : Awaits voters .follower [.becomeCandidate]
  | lead (votes : List NodeId) (h : majority voters ≤ votes.length) :
    Awaits voters (.candidate votes) [.becomeLeader]

/-- What can wait for a leader can wait for anybody. -/
theorem Seat.Awaits.of_leader {voters : Nat} {x : Progress} {y : Seat} {q : List RoleEvent}
    (h : Awaits voters (.leader x) q) : Awaits voters y q := by
  cases h with
  | nothing => exact .nothing y
  | notice _ i => exact .notice y i
  | retreat _ l => exact .retreat y l
  | retry _ l e he => exact .retry y l e he

theorem Seat.Awaits.isRequest {voters : Nat} {x : Seat} {q : List RoleEvent} (h : x.Awaits voters q)
    {e : Event} (he : .replay e ∈ q) : e.IsRequest := by
  cases h with
  | nothing => cases he
  | notice | retreat | election | lead => cases List.mem_singleton.1 he
  | retry _ l y hy =>
    rcases List.mem_cons.1 he with heq | hmem
    · cases heq
    · obtain rfl := RoleEvent.replay.inj (List.mem_singleton.1 hmem)
      exact hy
  | replay y hy =>
    obtain rfl := RoleEvent.replay.inj (List.mem_singleton.1 he)
    exact hy

namespace Tenure

/-- The role events that wait fit the seat, and more can be queued. -/
structure Fit (a : Tenure) : Prop where
  opened : a.closed = false
  quorum : a.quorum = majority a.voters
  awaits : a.seat.Awaits a.voters a.queue

/-- The node is about to step down. -/
def retires (a : Tenure) : Bool := a.queue.any stepsDown

/-- What a node owes when it steps down. A leader sends the clients that wait to the next leader,
and answers others. -/
def retire (a : Tenure) (leader : Option NodeId) (others : List Effect) : Tenure :=
  match a.seat with
  | .leader _ =>
    { a with
      seat := .follower
      waiters := a.waiters.takeAll.2
      said := a.said ++ Node.Leader.redirects a.waiters leader ++ others }
  | _ => { a with seat := .follower }

end Tenure

section Fit

variable {src : Option Event} {o a b : Tenure}

theorem Deed.fit (h : Deed src o a b) (ha : a.Fit) : b.Fit := by
  obtain ⟨hopen, hquorum, hawaits⟩ := ha
  -- an empty queue fits every seat
  have hfree : a.queue = [] → ∀ x : Seat, x.Awaits a.voters a.queue := by
    intro hqueue x
    rw [hqueue]
    exact .nothing x
  have hleader : ∀ x : Progress, a.seat = .leader x → ∀ y : Seat, y.Awaits a.voters a.queue := by
    intro x hx y
    rw [hx] at hawaits
    exact hawaits.of_leader
  have hsame := h.standsBy
  refine ⟨hsame.closed.trans hopen, ?_, ?_⟩
  · rw [hsame.quorum, hsame.voters]
    exact hquorum
  rw [hsame.voters]
  cases h with
  | say | follow | merge | append | register => exact hawaits
  | summon _ hseat =>
    show a.seat.Awaits _ _
    rw [hseat]
    exact .election
  | elect votes _ hseat hvotes =>
    show a.seat.Awaits _ _
    rw [hseat]
    exact .lead votes (hvotes.elim id fun h => hquorum ▸ h)
  | commit i => exact .notice _ i
  | yield t l => exact .retreat _ l
  | postpone e l _ he => exact .retry _ l e he
  | stand t _ hqueue => exact hfree hqueue _
  | count peer votes hqueue => exact hfree hqueue _
  | lead votes l _ hqueue => exact hfree hqueue _
  | send peer r x next commit limit hseat => exact hleader x hseat _
  | tally peer request y x _ _ _ _ hseat => exact hleader x hseat _
  | retreat peer request y hint next x _ _ _ _ _ hseat => exact hleader x hseat _

theorem Reached.fit (h : Reached src o a) (ho : o.Fit) : a.Fit :=
  h.induct (P := Tenure.Fit) (fun _ _ _ hx hdeed => hdeed.fit hx) ho

theorem fit_receive (h : a.Fit) : (a.receive src).Fit := by
  unfold Tenure.receive
  split
  · rename_i x hx
    split
    · obtain ⟨hopen, hquorum, hawaits⟩ := h
      rw [hx] at hawaits
      exact ⟨hopen, hquorum, hawaits.of_leader⟩
    · exact h
  · exact h

end Fit

/-! ## What a work does -/

/-- What a node takes up: a tick or an event when no role event waits, else the role event. -/
inductive Tenure.TakesUp (a : Tenure) : Option Event → Prop
  | free (src : Option Event) (hqueue : a.queue = []) : TakesUp a src
  | replay (e : Event) (hqueue : a.queue = [.replay e]) : TakesUp a (some e)
  | election (hqueue : a.queue = [.becomeCandidate]) : TakesUp a none
  | lead (hqueue : a.queue = [.becomeLeader]) : TakesUp a none

/-- What a work makes of a tenure. -/
inductive Worked (src : Option Event) (a : Tenure) : Tenure → Prop
  /-- The apply loop is told of a commit. -/
  | told (i : Nat) (hqueue : a.queue = [.newCommit i]) : Worked src a { a with queue := [] }
  /-- The node steps down. -/
  | retired (l : Option NodeId) (rest : List RoleEvent) (others : List Effect)
      (hqueue : a.queue = .becomeFollower l :: rest)
      (hothers : ∀ e ∈ others, ∃ caller y, e = .answer caller (.transfer y)) :
    Worked src a { a.retire l others with queue := rest }
  /-- It handles what it took up. -/
  | handled (b : Tenure) (htakes : a.TakesUp src)
      (h : Reached src (({ a with queue := [] } : Tenure).receive src) b) : Worked src a b

namespace Tenure

variable {a : Tenure} {src : Option Event} {l : Option NodeId} {others : List Effect}

theorem retires_of_queue {q : List RoleEvent} (h : a.queue = q) :
    a.retires = q.any stepsDown := by
  unfold retires
  rw [h]

theorem stays_of_free (h : a.queue = []) : a.retires = false := retires_of_queue h

/-- A node that takes something up is not about to step down. -/
theorem TakesUp.stays (h : a.TakesUp src) : a.retires = false := by
  cases h with
  | free _ hqueue | replay _ hqueue | election hqueue | lead hqueue =>
    exact retires_of_queue hqueue

theorem retire_of_leader {x : Progress} (h : a.seat = .leader x) : a.retire l others =
    { a with
      seat := .follower
      waiters := a.waiters.takeAll.2
      said := a.said ++ Node.Leader.redirects a.waiters l ++ others } := by
  unfold retire
  rw [h]

theorem retire_of_ne (h : ∀ x, a.seat ≠ .leader x) :
    a.retire l others = { a with seat := .follower } := by
  unfold retire
  split
  · rename_i x hx
    exact absurd hx (h x)
  · rfl

theorem Fit.retire (h : a.Fit) {rest : List RoleEvent}
    (hqueue : a.queue = .becomeFollower l :: rest) : ({ a.retire l others with queue := rest } : Tenure).Fit := by
  obtain ⟨hopen, hquorum, hawaits⟩ := h
  have hrest : Seat.follower.Awaits a.voters rest := by
    generalize a.seat = x at hawaits
    rw [hqueue] at hawaits
    cases hawaits with
    | retreat => exact .nothing _
    | retry _ _ e he => exact .replay e he
  unfold Tenure.retire
  split <;> exact ⟨hopen, hquorum, hrest⟩

end Tenure

theorem Tenure.retire_queue (a : Tenure) (l : Option NodeId) (others : List Effect)
    (q : List RoleEvent) :
    ({ ({ a with queue := q } : Tenure).retire l others with queue := a.queue } : Tenure)
      = a.retire l others := by
  unfold Tenure.retire
  cases a.seat <;> rfl

/-- What no work changes. -/
theorem Worked.standsBy {src : Option Event} {a b : Tenure} (h : Worked src a b) :
    b.StandsBy a := by
  cases h with
  | told => exact ⟨rfl, rfl, rfl, rfl, rfl, rfl, rfl, rfl⟩
  | retired l rest others =>
    unfold Tenure.retire
    cases a.seat <;> exact ⟨rfl, rfl, rfl, rfl, rfl, rfl, rfl, rfl⟩
  | handled _ _ h =>
    obtain ⟨y, hy⟩ := Tenure.exists_receive_eq { a with queue := [] } src
    rw [hy] at h
    exact h.standsBy.trans ⟨rfl, rfl, rfl, rfl, rfl, rfl, rfl, rfl⟩

theorem Worked.fit {src : Option Event} {a b : Tenure} (h : Worked src a b) (ha : a.Fit) :
    b.Fit := by
  have hpopped : ({ a with queue := [] } : Tenure).Fit := ⟨ha.opened, ha.quorum, .nothing _⟩
  cases h with
  | told => exact hpopped
  | retired l rest others hqueue => exact ha.retire hqueue
  | handled _ _ h => exact h.fit (fit_receive hpopped)

namespace Node

variable {src : Option Event} {n : Node}

/-! ## Roles -/

theorem handle_tenures {e : Event} (h : n.tenure.Free) :
    (handle e).Ensures n (fun _ m => Reached (some e) (n.tenure.receive (some e)) m.tenure)
      fun f m => Lapses (some e) (n.tenure.receive (some e)) f m.tenure := by
  unfold handle
  refine Action.ensures_get_bind ?_
  have hseat : n.tenure.seat = n.role.seat := rfl
  cases hrole : n.role with
  | follower timer =>
    rw [hrole] at hseat
    rw [Tenure.receive_of_seat (by rw [hseat]; exact nofun)]
    exact reaches_of_performs (Follower.handle_performs rfl rfl hseat h) rfl
  | candidate timer votes =>
    rw [hrole] at hseat
    rw [Tenure.receive_of_seat (by rw [hseat]; exact nofun)]
    exact reaches_of_performs (Candidate.handle_performs rfl rfl hseat h) rfl
  | leader l =>
    rw [hrole] at hseat
    exact Leader.handle_ensures hseat h

theorem tick_tenures (h : n.tenure.Free) :
    tick.Ensures n (fun _ m => Reached none n.tenure m.tenure)
      fun f m => Lapses none n.tenure f m.tenure := by
  unfold tick
  refine Action.ensures_get_bind ?_
  have hseat : n.tenure.seat = n.role.seat := rfl
  cases hrole : n.role with
  | follower timer =>
    rw [hrole] at hseat
    exact reaches_of_performs (Follower.tick_performs hseat h) rfl
  | candidate timer votes =>
    rw [hrole] at hseat
    exact reaches_of_performs (Candidate.tick_performs rfl hseat h) rfl
  | leader l => exact reaches_of_performs Leader.tick_performs rfl

/-! ## Changes of role -/

theorem become_follower_tenure (h : n.tenure.seat ≠ .follower) :
    (become .follower).Ensures n (fun _ m => m.tenure = { n.tenure with seat := .follower })
      fun _ _ => False := by
  have hkind : n.role.kind ≠ .follower := by
    intro hkind
    apply h
    show n.role.seat = _
    cases hrole : n.role with
    | follower timer => rfl
    | candidate | leader =>
      rw [hrole] at hkind
      cases hkind
  refine (become_follower_leaves hkind).weaken ?_
  rintro _ _ ⟨timer, seed, rfl⟩
  rfl

theorem become_candidate_tenure (h : n.tenure.seat = .follower) :
    (become .candidate).Ensures n (fun _ m => m.tenure = { n.tenure with seat := .candidate [] })
      fun _ _ => False := by
  have hseat : n.role.seat = .follower := h
  cases hrole : n.role with
  | candidate | leader =>
    rw [hrole] at hseat
    cases hseat
  | follower old =>
    refine (become_leaves_of_opens (.candidate default old hrole)).weaken ?_
    rintro _ _ ⟨r, seed, hr, rfl⟩
    cases hr with
    | candidate => rfl

theorem become_leader_tenure {votes : List NodeId} (h : n.tenure.seat = .candidate votes)
    (hquorum : majority n.tenure.voters ≤ votes.length) :
    (become .leader).Ensures n
      (fun _ m => (∃ l, m.role = .leader l ∧ l.progress = {})
        ∧ m.tenure = { n.tenure with seat := .leader {} }) fun _ _ => False := by
  have hseat : n.role.seat = .candidate votes := h
  cases hrole : n.role with
  | follower | leader =>
    rw [hrole] at hseat
    cases hseat
  | candidate old votes' =>
    rw [hrole] at hseat
    obtain rfl := Seat.candidate.inj hseat
    refine (become_leaves_of_opens (.leader default old _ hrole hquorum)).weaken ?_
    rintro _ _ ⟨r, seed, hr, rfl⟩
    cases hr with
    | leader => exact ⟨⟨_, rfl, rfl⟩, rfl⟩

/-! ## Role events -/

theorem becomeFollower_tenure (leader : Option NodeId) (n : Node) :
    (handleRole (.becomeFollower leader)).Ensures n
      (fun _ m => ∃ others : List Effect,
        (∀ e ∈ others, ∃ caller y, e = .answer caller (.transfer y))
          ∧ m.tenure = n.tenure.retire leader others)
      fun _ _ => False := by
  unfold handleRole
  refine Action.ensures_modify_bind (Action.ensures_get_bind ?_)
  generalize hk : ({ n with view := _ } : Node) = k
  have ho : k.tenure = n.tenure := by
    rw [← hk]
    cases leader <;> rfl
  have hseat : k.tenure.seat = k.role.seat := rfl
  cases hrole : k.role with
  | follower timer =>
    rw [hrole] at hseat
    have hfollower : k.tenure.seat = .follower := hseat
    refine Action.ensures_pure ⟨[], by simp, ?_⟩
    rw [← ho, Tenure.retire_of_ne (by rw [hfollower]; exact nofun), ← hfollower]
  | candidate timer votes =>
    rw [hrole] at hseat
    have hcandidate : k.tenure.seat = .candidate votes := hseat
    refine (become_follower_tenure (by rw [hcandidate]; exact nofun)).weaken fun _ m hm =>
      ⟨[], by simp, ?_⟩
    rw [hm, ← ho, Tenure.retire_of_ne (by rw [hcandidate]; exact nofun)]
  | leader l =>
    rw [hrole] at hseat
    have hleader : k.tenure.seat = .leader l.progress := hseat
    refine (Leader.onStepDown_tenure leader hrole).bind ?_
    rintro _ m ⟨others, hothers, hm⟩
    have hother : m.tenure.seat ≠ .follower := by
      rw [hm]
      show k.tenure.seat ≠ _
      rw [hleader]
      exact nofun
    refine (become_follower_tenure hother).weaken fun _ j hj => ⟨others, hothers, ?_⟩
    rw [hj, hm, ← ho, Tenure.retire_of_leader hleader]

theorem becomeCandidate_tenures (h : n.tenure.Free) (hseat : n.tenure.seat = .follower) :
    (handleRole .becomeCandidate).Ensures n (fun _ m => Reached none n.tenure m.tenure)
      fun f m => Lapses none n.tenure f m.tenure := by
  unfold handleRole
  refine (become_candidate_tenure hseat).bind_of_sure fun _ m hm => ?_
  have hleader : ∀ x, n.tenure.seat ≠ .leader x := by
    rw [hseat]
    exact nofun
  refine startElection_tenures (by rw [hm]; exact ⟨h.opened, h.queue⟩) ?_ fun f b hb hf => ?_
  · rw [hm]
    exact (Reached.refl _).step (Deed.stand _ hleader h.queue hleader (Nat.le_refl _))
  · refine (Reached.refl _).lapses_of_stop ?_ hf
    rw [hm] at hb
    exact { hb with }

theorem becomeLeader_tenures {votes : List NodeId} (h : n.tenure.Free)
    (hseat : n.tenure.seat = .candidate votes) (hquorum : majority n.tenure.voters ≤ votes.length) :
    (handleRole .becomeLeader).Ensures n (fun _ m => Reached none n.tenure m.tenure)
      fun f m => Lapses none n.tenure f m.tenure := by
  unfold handleRole
  refine (become_leader_tenure hseat hquorum).bind_of_sure ?_
  rintro _ m ⟨⟨l, hrole, hl⟩, hm⟩
  exact Leader.onElected_tenures hrole hl hm hseat h

end Node

/-! ## Works -/

/-- The tenure of a node that has a role event still to take. -/
def Work.tenure (n : Node) : Work → Tenure
  | .role e => { n.tenure with queue := e :: n.tenure.queue }
  | .tick => n.tenure
  | .event _ => n.tenure

/-- What a work that fails leaves. A node that survives has done the work, and no change of role was
refused. -/
def Tenure.Fails (src : Option Event) (a : Tenure) (f : Failure Error) (b : Tenure) : Prop :=
  ∃ m, Worked src a m ∧ Spares m b
    ∧ ∀ e, f = .error e → e.isFatal = false → b = m ∧ ∀ x, e ≠ .transition x

theorem Lapses.fails {src : Option Event} {a b : Tenure} {f : Failure Error}
    (h : Lapses src (({ a with queue := [] } : Tenure).receive src) f b) (htakes : a.TakesUp src) :
    Tenure.Fails src a f b := by
  obtain ⟨m, hm, hrest⟩ := h
  exact ⟨m, .handled m htakes hm, hrest⟩

section Works

variable {n : Node} {w : Work}

/-- A work that is taken up with an empty queue is done by handling what it takes up. -/
theorem Work.works_of_reaches (hqueue : n.tenure.queue = []) (htakes : (w.tenure n).TakesUp w.source)
    (hrun : w.run.Ensures n (fun _ m => Reached w.source (n.tenure.receive w.source) m.tenure)
      fun f m => Lapses w.source (n.tenure.receive w.source) f m.tenure) :
    w.run.Ensures n (fun _ m => Worked w.source (w.tenure n) m.tenure)
      fun f m => Tenure.Fails w.source (w.tenure n) f m.tenure := by
  have hpop : ({ w.tenure n with queue := [] } : Tenure) = n.tenure := by
    cases w <;> rw [← hqueue] <;> rfl
  rw [← hpop] at hrun
  exact hrun.mono (fun _ m hm => .handled _ htakes hm) fun f m hm => hm.fails htakes

/-- A node that is told to step down does so. -/
theorem becomeFollower_works (l : Option NodeId) (n : Node) :
    (Work.role (.becomeFollower l)).run.Ensures n
      (fun _ m => Worked none (Work.tenure n (.role (.becomeFollower l))) m.tenure)
      fun f m => Tenure.Fails none (Work.tenure n (.role (.becomeFollower l))) f m.tenure := by
  refine (Node.becomeFollower_tenure l n).mono_of_sure ?_
  rintro _ m ⟨others, hothers, hm⟩
  rw [hm, ← n.tenure.retire_queue l others (.becomeFollower l :: n.tenure.queue)]
  exact Worked.retired l n.tenure.queue others rfl hothers

/-- **What the loop does.** A work whose role events fit is done. -/
theorem Work.run_works (hfit : (w.tenure n).Fit)
    (hidle : w = .tick ∨ (∃ e, w = .event e) → n.tenure.queue = []) :
    w.run.Ensures n (fun _ m => Worked w.source (w.tenure n) m.tenure)
      fun f m => Tenure.Fails w.source (w.tenure n) f m.tenure := by
  obtain ⟨hopen, -, hawaits⟩ := hfit
  have hfree : n.tenure.queue = [] → n.tenure.Free := by
    intro hqueue
    refine ⟨?_, hqueue⟩
    cases w <;> exact hopen
  cases w with
  | tick =>
    have hqueue := hidle (Or.inl rfl)
    refine Work.works_of_reaches hqueue (.free _ hqueue) ?_
    exact Node.tick_tenures (hfree hqueue)
  | event e =>
    have hqueue := hidle (Or.inr ⟨e, rfl⟩)
    refine Work.works_of_reaches hqueue (.free _ hqueue) ?_
    exact Node.handle_tenures (hfree hqueue)
  | role e =>
    have hseat : (Work.tenure n (.role e)).seat = n.tenure.seat := rfl
    generalize hx : (Work.tenure n (.role e)).seat = x at hawaits hseat
    generalize hq : (Work.tenure n (.role e)).queue = q at hawaits
    have hq' : e :: n.tenure.queue = q := hq
    -- the role event is the head of the queue, and what can wait there is known
    cases hawaits with
    | nothing => cases hq'
    | notice _ i =>
      obtain ⟨rfl, hqueue⟩ := List.cons.inj hq'
      refine Action.ensures_modify ?_
      have htold : n.tenure = { Work.tenure n (.role (.newCommit i)) with queue := [] } := by
        rw [← hqueue]
        rfl
      show Worked _ _ n.tenure
      rw [htold]
      exact Worked.told i hq
    | retreat _ l =>
      obtain ⟨rfl, -⟩ := List.cons.inj hq'
      exact becomeFollower_works l n
    | retry _ l x =>
      obtain ⟨rfl, -⟩ := List.cons.inj hq'
      exact becomeFollower_works l n
    | replay e =>
      obtain ⟨rfl, hqueue⟩ := List.cons.inj hq'
      refine Work.works_of_reaches hqueue (.replay _ hq) ?_
      exact Node.handle_tenures (hfree hqueue)
    | election =>
      obtain ⟨rfl, hqueue⟩ := List.cons.inj hq'
      refine Work.works_of_reaches hqueue (.election hq) ?_
      exact Node.becomeCandidate_tenures (hfree hqueue) hseat.symm
    | lead votes hvotes =>
      obtain ⟨rfl, hqueue⟩ := List.cons.inj hq'
      refine Work.works_of_reaches hqueue (.lead hq) ?_
      exact Node.becomeLeader_tenures (hfree hqueue) hseat.symm hvotes

end Works

end Raft
