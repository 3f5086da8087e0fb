import Raft.Proofs.Network.Basic
import Raft.Proofs.Tenure.Loop

/-!
# The steps of a server and tenures

* `Server.Labours src s t`: the event loop of a server handled something, and goes on or has ended.
* `Server.take?_legal`: what the loop takes up is legal.
* `Server.Does Source Named s t`: one step of a server, whose event loop handles something out of
  `Source` if anything.
* `Server.Does.keeps`: what every work keeps, a server keeps that runs.
-/

namespace Raft

/-- What the apply loop does and what is disturbed leave the same log and seat, and say nothing. -/
def Tenure.Idles (a b : Tenure) : Prop :=
  ∃ log applied done waiters replied, log.entries = a.log.entries
    ∧ b = { a with log, applied, done, waiters, replied }

/-- They do so too when what was said is taken. -/
def Tenure.Kin (a b : Tenure) : Prop :=
  ∃ log applied done waiters replied said, log.entries = a.log.entries
    ∧ b = { a with log, applied, done, waiters, replied, said }

theorem Tenure.Idles.kin {a b : Tenure} (h : a.Idles b) : a.Kin b := by
  obtain ⟨log, applied, done, waiters, replied, hlog, rfl⟩ := h
  exact ⟨log, applied, done, waiters, replied, a.said, hlog, rfl⟩

theorem Tenure.Kin.fit {a b : Tenure} (h : a.Kin b) (ha : a.Fit) : b.Fit := by
  obtain ⟨log, applied, done, waiters, replied, said, -, rfl⟩ := h
  exact ⟨ha.opened, ha.quorum, ha.awaits⟩

/-- What a failure leaves has stored no older term than the node was in. -/
theorem Spares.le_stored {m b : Tenure} {t : Nat} (h : Spares m b)
    (hkept : m.hard.term ≤ (m.stored.getD {}).term) (ht : t ≤ m.hard.term) :
    t ≤ (b.stored.getD {}).term := by
  rcases h.stored with hsame | ⟨u, hu, hnew⟩
  · rw [hsame]
    exact Nat.le_trans ht hkept
  · rw [hnew]
    exact Nat.le_trans ht (Nat.le_of_lt hu)

namespace Server

variable {Source : Option Event → Prop} {Named : String → Prop} {src : Option Event} {s t : Server}
  {w : Work}

/-! ## The event loop -/

/-- The event loop of a server handled something. It goes on, or it has ended with little in
order. -/
inductive Labours (src : Option Event) (s t : Server) : Prop
  | goes (hended : t.ended = s.ended) (h : Worked src s.node.tenure t.node.tenure)
  | ends (m : Tenure) (hended : t.ended.isSome = true) (h : Worked src s.node.tenure m)
      (hspares : Spares m t.node.tenure)

/-- A work that fits is done by a server that has it still to take, and it asks for no change of
role that is refused. -/
theorem handle_labours (ht : w.tenure t.node = s.node.tenure) (hended : t.ended = s.ended)
    (hfit : s.node.tenure.Fit)
    (hidle : w = .tick ∨ (∃ e, w = .event e) → t.node.queue = []) :
    Labours w.source s (t.handle w)
      ∧ ∀ x, Action.outcome (w.run.run t.node) ≠ .error (.error (.transition x)) := by
  have h := Work.run_works (n := t.node) (w := w) (ht ▸ hfit) hidle
  rw [ht] at h
  unfold Action.Ensures at h
  unfold handle
  cases hrun : w.run.run t.node with
  | ok a n =>
    rw [hrun] at h
    exact ⟨.goes hended h, nofun⟩
  | error f n =>
    rw [hrun] at h
    obtain ⟨m, hm, hspares, hsame⟩ := h
    have hstop : Spares m { n.tenure with queue := [] } := { hspares with }
    constructor
    · cases f with
      | overflow => exact .ends m rfl hm hstop
      | error e =>
        dsimp only [Action.outcome]
        split
        · exact .ends m rfl hm hstop
        · rename_i he
          refine .goes hended ?_
          show Worked _ _ n.tenure
          rw [(hsame e rfl (by simpa using he)).1]
          exact hm
    · rintro x hx
      obtain rfl := Except.error.inj hx
      exact (hsame _ rfl rfl).2 x rfl

theorem handle_role_labours {e : RoleEvent} {queue : List RoleEvent}
    (hqueue : s.node.queue = e :: queue) (hfit : s.node.tenure.Fit) :
    let t : Server := { s with node := { s.node with queue } }
    Labours (Work.role e).source s (t.handle (.role e))
      ∧ ∀ x, Action.outcome ((Work.role e).run.run t.node) ≠ .error (.error (.transition x)) := by
  refine handle_labours (t := { s with node := { s.node with queue } }) ?_ rfl hfit ?_
  · show ({ s.node.tenure with queue := e :: queue } : Tenure) = _
    rw [← hqueue]
    rfl
  · rintro (hx | ⟨x, hx⟩) <;> cases hx

/-- What the loop takes up is legal, whatever waits in the inbox. -/
theorem take?_legal (hfit : s.node.tenure.Fit) (h : s.take? = some (w, t)) :
    (w = .tick ∨ (∃ e, w = .event e) → s.node.queue = [])
      ∧ ∀ x, Action.outcome (w.run.run t.node) ≠ .error (.error (.transition x)) := by
  unfold take? at h
  split at h
  · split at h
    · rename_i e queue hqueue
      obtain ⟨rfl, rfl⟩ := Prod.mk.inj (Option.some.inj h)
      refine ⟨?_, (handle_role_labours hqueue hfit).2⟩
      rintro (hx | ⟨x, hx⟩) <;> cases hx
    · rename_i hqueue
      split at h
      · obtain ⟨rfl, rfl⟩ := Prod.mk.inj (Option.some.inj h)
        exact ⟨fun _ => hqueue, (handle_labours rfl rfl hfit fun _ => hqueue).2⟩
      · split at h
        · obtain ⟨rfl, rfl⟩ := Prod.mk.inj (Option.some.inj h)
          exact ⟨fun _ => hqueue, (handle_labours (s := s) rfl rfl hfit fun _ => hqueue).2⟩
        · cases h
  · cases h

/-! ## Steps -/

/-- One step of a server, which handles something out of `Source` if it handles anything, and from
which a request out of `Named` is withdrawn if any is. -/
inductive Does (Source : Option Event → Prop) (Named : String → Prop) (s t : Server) : Prop
  /-- Nothing happens but for the clock and to the storage. -/
  | rests (hended : t.ended = s.ended)
      (h : ∃ log : Log, log.entries = s.node.log.entries
        ∧ t.node.tenure = { s.node.tenure with log })
  /-- The event loop handles something. -/
  | works (src : Option Event) (hrun : s.isRunning = true) (hsource : Source src)
      (h : Labours src s t)
  /-- The apply loop works a round, on a commit signal or on its own. -/
  | applies (a : Applier) (hended : t.ended = s.ended)
      (ha : a = s.node.applier ∨ ∃ i ∈ s.node.signals, a = s.node.applier.signal i)
      (h : t.node.applier = (s.schedule.round s.node.log a).2)
      (hrest : t.node.tenure = { s.node.tenure with
        applied := t.node.applier.lastApplied
        done := t.node.applier.machine.last
        waiters := t.node.applier.waiters
        replied := t.node.applier.answers })
  /-- A client no longer waits. -/
  | withdraws (request : String) (hnamed : Named request) (hended : t.ended = s.ended)
      (h : t.node.tenure = { s.node.tenure with
        waiters := (s.node.applier.waiters.cancel request).2 })

theorem does_self (s : Server) : s.Does Source Named s := .rests rfl ⟨s.node.log, rfl, rfl⟩

/-- A server takes up a tick or an event, or has no time for it. -/
theorem does_workFree (hfit : s.isRunning = true → s.node.tenure.Fit)
    (hw : w = .tick ∨ ∃ e, w = .event e) (hsource : s.node.queue = [] → Source w.source) :
    s.Does Source Named (Network.workFree w s) := by
  unfold Network.workFree
  split
  · rename_i hfree
    rw [Bool.and_eq_true, List.isEmpty_iff] at hfree
    refine .works _ hfree.1 (hsource hfree.2)
      (handle_labours ?_ rfl (hfit hfree.1) fun _ => hfree.2).1
    rcases hw with rfl | ⟨e, rfl⟩ <;> rfl
  · exact does_self s

/-- A server takes up a role event, if there is one. -/
theorem does_workRole (hfit : s.isRunning = true → s.node.tenure.Fit)
    (hsource : ∀ e ∈ s.node.queue, Source (Work.role e).source) :
    s.Does Source Named (Network.workRole s) := by
  unfold Network.workRole
  split
  · rename_i e queue hqueue
    split
    · rename_i hrun
      refine .works _ hrun (hsource e ?_) (handle_role_labours hqueue (hfit hrun)).1
      rw [hqueue]
      exact List.mem_cons_self ..
    · exact does_self s
  · exact does_self s

theorem does_applyRound : s.Does Source Named (Network.applyRound s) :=
  .applies s.node.applier rfl (Or.inl rfl) rfl rfl

theorem does_takeSignal : s.Does Source Named (Network.takeSignal s) := by
  unfold Network.takeSignal
  split
  · rename_i i signals hsignals
    have hi : i ∈ s.node.signals := by
      rw [hsignals]
      exact List.mem_cons_self ..
    cases hended : s.schedule.ended with
    | none =>
      refine .applies (s.node.applier.signal i) rfl (Or.inr ⟨i, hi, rfl⟩) ?_ rfl
      dsimp only [ApplySchedule.signal]
      rw [hended]
    | some why =>
      refine .rests rfl ⟨s.node.log, rfl, ?_⟩
      dsimp only [ApplySchedule.signal]
      rw [hended]
      rfl
  · exact does_self s

theorem does_withdraw {request : String} (h : Named request) :
    s.Does Source Named (Network.withdraw request s) := .withdraws request h rfl rfl

theorem does_setClock (now : Nat) : s.Does Source Named (s.setClock now) :=
  .rests rfl ⟨s.node.log, rfl, rfl⟩

theorem does_disturb (faults : LogFaults) (saves : Option Nat) (broken : Bool) :
    s.Does Source Named
      { s with node := s.node.withRemains (Network.disturb faults saves broken s.node.remains) } :=
  .rests rfl ⟨{ s.node.log with faults }, rfl, rfl⟩

/-! ## Starting -/

theorem start_tenure {settings : Settings} {storage : Node.Remains} {window now : Nat}
    {seed : Seed} (h : Server.start settings true (.ok storage) window now seed = .ok s) :
    s.isRunning = true ∧ s.node.tenure =
      { self := settings.cluster.node
        peers := settings.view.peers
        voters := settings.cluster.members.length
        quorum := majority settings.cluster.members.length
        seat := .follower
        hard := storage.stored.getD {}
        stored := storage.stored
        log := storage.log
        queue := []
        closed := false
        applied := storage.machine.last
        done := storage.machine.last
        waiters := {}
        replied := []
        said := [] } := by
  obtain ⟨-, node, hnode, rfl⟩ := exists_of_start h
  obtain ⟨sessions, timer, seed, -, rfl⟩ := Node.exists_of_start hnode
  exact ⟨rfl, rfl⟩

theorem fit_start {settings : Settings} {storage : Node.Remains} {window now : Nat} {seed : Seed}
    (h : Server.start settings true (.ok storage) window now seed = .ok s) :
    s.node.tenure.Fit ∧ s.node.tenure.seat = .follower := by
  rw [(start_tenure h).2]
  exact ⟨⟨rfl, rfl, .nothing _⟩, rfl⟩

/-! ## From step to step -/

theorem not_isRunning (h : t.ended.isSome = true) : t.isRunning ≠ true := by
  intro hrun
  rw [isRunning, Option.isNone_iff_eq_none] at hrun
  rw [hrun] at h
  cases h

theorem isRunning_of_ended (h : t.ended = s.ended) : t.isRunning = s.isRunning := by
  unfold isRunning
  rw [h]

/-- The event loop has nothing to do with a step, or handles something. -/
theorem Does.idles_or_labours (h : s.Does Source Named t) :
    t.ended = s.ended ∧ s.node.tenure.Idles t.node.tenure
      ∨ ∃ src, s.isRunning = true ∧ Source src ∧ Labours src s t := by
  cases h with
  | rests hended h =>
    obtain ⟨log, hlog, h⟩ := h
    exact Or.inl ⟨hended, log, _, _, _, _, hlog, h⟩
  | works src hrun hsrc h => exact Or.inr ⟨src, hrun, hsrc, h⟩
  | applies _ hended _ _ h => exact Or.inl ⟨hended, _, _, _, _, _, rfl, h⟩
  | withdraws _ _ hended h => exact Or.inl ⟨hended, _, _, _, _, _, rfl, h⟩

/-- What every work keeps goes on to hold while the event loop runs, and what fits to fit. -/
theorem Does.keeps {P : Tenure → Prop} (h : s.Does Source Named t)
    (hwork : ∀ src a b, a.Fit → P a → Worked src a b → P b)
    (hkin : ∀ a b : Tenure, P a → a.Kin b → P b)
    (hs : s.isRunning = true → s.node.tenure.Fit ∧ P s.node.tenure) (ht : t.isRunning = true) :
    t.node.tenure.Fit ∧ P t.node.tenure := by
  rcases h.idles_or_labours with ⟨hended, hidles⟩ | ⟨src, hrun, -, h⟩
  · obtain ⟨hfit, hP⟩ := hs (isRunning_of_ended hended ▸ ht)
    exact ⟨hidles.kin.fit hfit, hkin _ _ hP hidles.kin⟩
  · obtain ⟨hfit, hP⟩ := hs hrun
    cases h with
    | goes _ h => exact ⟨h.fit hfit, hwork _ _ _ hfit hP h⟩
    | ends _ hended => exact absurd ht (not_isRunning hended)

/-- A server of which everything was taken stays as it is when what it says is taken. -/
theorem takeEffects_of_taken (heffects : s.node.effects = [])
    (hanswers : s.node.applier.answers = []) : s.takeEffects.2 = s := by
  show ({ s with node := { s.node with
    effects := [], applier := { s.node.applier with answers := [] } } } : Server) = s
  rw [← heffects, ← hanswers]

end Server

end Raft
