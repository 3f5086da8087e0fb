import Mathlib.Logic.Function.Iterate
import Raft.Proofs.Node.Acts
import Raft.Proofs.Log.Merge
import Raft.Proofs.Apply.Steady

/-!
# Stops and restarts of the apply loop

A node that stops loses its session table, and all the loop knows of the entries that it took. What
outlives it is the log and the state machine, which counts commands only. A node that starts over
them builds the table again, and takes up the log behind the last command of the state machine.

* `Applier.take log a` and `Applier.give log a`: what the next entry does to a loop, and its result.
  A round takes a number of entries (`Applier.process_eq_takes`), and so do several.
* `Applier.straight batch window log k`: the loop that took `k` entries and was never stopped.
* `Applier.left log a cut`: the state machine of a loop that is stopped. `Applier.resume` starts
  over it, as a node does (`Applier.resume_of_start`).
* `ApplyLife.run batch window log acts`: a loop that is stopped any number of times.
* `ApplyLife.restart_changes_nothing` is the result; `ApplyLife.proceeds_alike_of_start` says of a
  node that starts what it comes to.
-/

namespace Raft

namespace Applier

/-- The loop takes the next entry of the log, if there is one. -/
def take (log : Log) (a : Applier) : Applier :=
  match log.get? (a.lastApplied + 1) with
  | none => a
  | some e => Action.state ((applyEntry e).run a)

def give (log : Log) (a : Applier) : Option (Except (Failure Error) (Option CommitResult)) :=
  (log.get? (a.lastApplied + 1)).map fun e => Action.outcome ((execute e).run a)

/-- The loop that took `k` entries and was never stopped. -/
def straight (batch window : Nat) (log : Log) (k : Nat) : Applier :=
  (take log)^[k] { batch, sessions := Sessions.empty window }

/-- Where a loop is stopped. -/
inductive Cut where
  /-- Between two entries. -/
  | between
  /-- After the state machine applied the next entry, and before the result is recorded. -/
  | applied

/-- The state machine that a stopped loop leaves. Recording a result does not touch it, so that in
the middle of an entry it is the one that executing the entry ends with. -/
def left (log : Log) (a : Applier) : Cut → Machine
  | .between => a.machine
  | .applied =>
    match log.get? (a.lastApplied + 1) with
    | none => a.machine
    | some e => (Action.state ((execute e).run a)).machine

/-- The loop of a node that starts over a state machine. -/
def resume (batch window : Nat) (log : Log) (machine : Machine) : Except Error Applier :=
  (Sessions.rebuild window log machine machine.last).map fun sessions =>
    { batch, lastApplied := machine.last, machine, sessions }

/-- Two loops have applied the same. -/
structure Alike (a b : Applier) : Prop where
  lastApplied : a.lastApplied = b.lastApplied
  machine : a.machine = b.machine
  sessions : a.sessions = b.sessions

variable {window : Nat} {R R' : Nat → Waiter → Prop} {log : Log} {l : List Entry} {a b : Applier}
  {e : Entry}

theorem resume_of_start {settings : Settings} {r : Node.Remains} {now : Nat} {seed : Seed}
    {n : Node} (h : Node.start settings window r now seed = .ok n) :
    resume settings.consensus.commit.batch window r.log r.machine = .ok n.applier := by
  obtain ⟨sessions, timer, seed, hsessions, rfl⟩ := Node.exists_of_start h
  unfold resume
  rw [hsessions]
  rfl

/-! ## Rounds -/

theorem applyEntry_eq_take (hl : Positioned log.entries)
    (he : entryAt log.entries (a.lastApplied + 1) = some e) :
    (applyEntry e).Ensures a (fun _ b => b = a.take log ∧ b.lastApplied = a.lastApplied + 1)
      fun _ b => b = a.take log := by
  have htake : a.take log = Action.state ((applyEntry e).run a) := by
    unfold take
    rw [Log.get?_eq_entryAt, he]
  have hindex := hl _ e he
  have hentry := applyEntry_ensures e a
  unfold Action.Ensures at hentry ⊢
  rw [htake]
  cases hrun : (applyEntry e).run a with
  | ok u b =>
    rw [hrun] at hentry
    obtain ⟨r, m, -, rfl⟩ := hentry
    exact ⟨rfl, hindex⟩
  | error f b => exact rfl

theorem applyAll_eq_takes (hl : Positioned log.entries) {entries : List Entry} (a : Applier)
    (hentries : ∀ k e, entries[k]? = some e →
      entryAt log.entries (a.lastApplied + k + 1) = some e) :
    (applyAll entries).Ensures a (fun _ b => ∃ n, b = (take log)^[n] a)
      fun _ b => ∃ n, b = (take log)^[n] a := by
  induction entries generalizing a with
  | nil => exact Action.ensures_pure ⟨0, rfl⟩
  | cons e rest ih =>
    unfold applyAll
    have hentry := applyEntry_eq_take hl (hentries 0 e rfl)
    refine Action.Ensures.bind (hentry.mono (fun _ _ hb => hb) ?_) ?_
    · rintro _ b rfl
      exact ⟨1, rfl⟩
    · rintro _ b ⟨rfl, hlast⟩
      refine (ih (a.take log) fun k x hk => ?_).mono ?_ ?_
      · have := hentries (k + 1) x hk
        rwa [hlast, show a.lastApplied + 1 + k + 1 = a.lastApplied + (k + 1) + 1 by omega]
      · rintro _ _ ⟨n, rfl⟩
        exact ⟨n + 1, rfl⟩
      · rintro _ _ ⟨n, rfl⟩
        exact ⟨n + 1, rfl⟩

/-- **A round takes a number of entries, however it ends.** -/
theorem process_eq_takes (hl : Positioned log.entries) (a : Applier) :
    (process log).Ensures a (fun _ b => ∃ n, b = (take log)^[n] a)
      fun _ b => ∃ n, b = (take log)^[n] a := by
  unfold process
  refine Action.ensures_get_bind ?_
  split
  · refine Action.Ensures.bind (Q := fun bound b => bound = a.lastApplied + a.batch ∧ a = b)
      (Action.ensures_ofExcept (fun _ hbound => ⟨(sum_eq_ok_iff.1 hbound).2.symm, rfl⟩)
        fun _ _ => ⟨0, rfl⟩) ?_
    rintro _ _ ⟨rfl, rfl⟩
    dsimp only
    split
    · exact Action.ensures_fail ⟨0, rfl⟩
    · rename_i entries hrange
      exact applyAll_eq_takes hl _ fun k e hk => ((batch_of_range_eq_ok hl hrange).2 k e hk).1
  · exact Action.ensures_pure ⟨0, rfl⟩

/-- The loop after a round, however that ends. -/
def proceed (log : Log) (a : Applier) : Applier := Action.state ((process log).run a)

theorem proceed_eq_takes (hl : Positioned log.entries) (a : Applier) :
    ∃ n, a.proceed log = (take log)^[n] a := by
  have hround := process_eq_takes hl a
  unfold proceed
  unfold Action.Ensures at hround
  cases hrun : (process log).run a with
  | ok u b =>
    rw [hrun] at hround
    exact hround
  | error f b =>
    rw [hrun] at hround
    exact hround

theorem proceeds_eq_takes (hl : Positioned log.entries) (a : Applier) (k : Nat) :
    ∃ n, (proceed log)^[k] a = (take log)^[n] a := by
  induction k with
  | zero => exact ⟨0, rfl⟩
  | succ k ih =>
    obtain ⟨n, hn⟩ := ih
    obtain ⟨m, hm⟩ := proceed_eq_takes hl ((take log)^[n] a)
    refine ⟨m + n, ?_⟩
    rw [Function.iterate_succ_apply', hn, hm, Function.iterate_add_apply]

/-! ## Entries -/

/-- A loop over a state machine that does not fail executes every entry. -/
theorem Steady.executes (h : a.Steady window [] R log.entries) (hl : Positioned log.entries)
    (he : entryAt log.entries (a.lastApplied + 1) = some e) :
    ∃ r b, (execute e).run a = .ok r b ∧ a.Executed e r b := by
  have hexecute := execute_ensures e a
  unfold Action.Ensures at hexecute
  cases hrun : (execute e).run a with
  | ok r b =>
    rw [hrun] at hexecute
    exact ⟨r, b, rfl, hexecute⟩
  | error f b =>
    rw [hrun] at hexecute
    have hfails := (h.refused hl he hexecute.2).2.1
    cases hfails

theorem run_applyEntry {r : Option CommitResult} (h : (execute e).run a = .ok r b) :
    (applyEntry e).run a = .ok ⟨⟩ (b.conclude e r) := by
  unfold applyEntry
  rw [EStateM.run_bind, h]
  rfl

theorem Steady.take (h : a.Steady window [] R log.entries) (hl : Positioned log.entries) :
    (a.take log).Steady window [] R log.entries
      ∧ (a.take log).lastApplied = min (a.lastApplied + 1) log.lastIndex := by
  have hle : a.lastApplied ≤ log.lastIndex := h.le_length
  unfold Applier.take
  rw [Log.get?_eq_entryAt]
  cases he : entryAt log.entries (a.lastApplied + 1) with
  | none =>
    refine ⟨h, ?_⟩
    have hend : ¬ a.lastApplied + 1 ≤ log.lastIndex := by
      intro hlt
      obtain ⟨e, he'⟩ := exists_entryAt (Nat.succ_pos _) hlt
      cases he.symm.trans he'
    dsimp only
    omega
  | some e =>
    have hindex := hl _ e he
    have hlt : a.lastApplied + 1 ≤ log.lastIndex := (le_length_of_entryAt he).2
    obtain ⟨r, b, hrun, hx⟩ := h.executes hl he
    dsimp only
    rw [run_applyEntry hrun]
    refine ⟨h.conclude he hindex hx, ?_⟩
    show e.index = _
    omega

/-- **Any number of entries.** -/
theorem Steady.takes (h : a.Steady window [] R log.entries) (hl : Positioned log.entries)
    (n : Nat) :
    ((Applier.take log)^[n] a).Steady window [] R log.entries
      ∧ ((Applier.take log)^[n] a).lastApplied = min (a.lastApplied + n) log.lastIndex := by
  induction n with
  | zero => exact ⟨h, (Nat.min_eq_left h.le_length).symm⟩
  | succ n ih =>
    obtain ⟨hsteady, hlast⟩ := ih
    rw [Function.iterate_succ_apply']
    obtain ⟨hsteady', hlast'⟩ := hsteady.take hl
    refine ⟨hsteady', ?_⟩
    rw [hlast', hlast]
    omega

theorem straight_steady (hl : Positioned log.entries) (batch window k : Nat) :
    (straight batch window log k).Steady window [] R log.entries
      ∧ (straight batch window log k).lastApplied = min k log.lastIndex := by
  obtain ⟨hsteady, hlast⟩ := (steady_fresh batch window [] R log.entries).takes hl k
  exact ⟨hsteady, by rwa [Nat.zero_add] at hlast⟩

theorem Steady.alike (h : a.Steady window [] R l) (h' : b.Steady window [] R' l)
    (hlast : a.lastApplied = b.lastApplied) : a.Alike b := by
  have hfollows := h'.follows
  rw [← hlast] at hfollows
  obtain ⟨hmachine, hsessions⟩ := h.follows.unique hfollows h.refuses h'.refuses
  exact ⟨hlast, hmachine, hsessions⟩

/-- The result of an entry depends on what was applied before. -/
theorem Alike.outcome_eq (h : a.Alike b) (e : Entry) :
    Action.outcome ((execute e).run a) = Action.outcome ((execute e).run b) := by
  obtain ⟨-, hmachine, hsessions⟩ := h
  have hget : ∀ (f : Applier → Action Applier (Option CommitResult)) (a : Applier),
      (get >>= f).run a = (f a).run a := fun _ _ => rfl
  unfold execute
  cases e.payload with
  | noop => rfl
  | command c =>
    dsimp only
    rw [hget, hget, hmachine, hsessions]
    cases b.sessions.check c.client c.sequence with
    | applied r => rfl
    | stale latest => rfl
    | new =>
      dsimp only
      cases b.machine.apply e.index e.term c.data with
      | error err => rfl
      | ok p => rfl

theorem Alike.give_eq (h : a.Alike b) : a.give log = b.give log := by
  unfold give
  rw [h.lastApplied]
  cases log.get? (b.lastApplied + 1) with
  | none => rfl
  | some e => exact congrArg some (h.outcome_eq e)

theorem Steady.exists_of_give (h : a.Steady window [] R log.entries) (hl : Positioned log.entries)
    {r : Except (Failure Error) (Option CommitResult)} (hr : a.give log = some r) :
    ∃ c, r = .ok c := by
  unfold give at hr
  rw [Log.get?_eq_entryAt] at hr
  obtain ⟨e, he, rfl⟩ := Option.map_eq_some_iff.1 hr
  obtain ⟨c, b, hrun, -⟩ := h.executes hl he
  rw [hrun]
  exact ⟨c, rfl⟩

/-! ## Stops -/

/-- The state machine that a stopped loop leaves has applied the first entries of the log. -/
theorem Steady.left (h : a.Steady window [] R log.entries) (hl : Positioned log.entries)
    (cut : Cut) :
    ∃ k t, (a.left log cut).Follows window log.entries k t ∧ (a.left log cut).last ≤ k
      ∧ k ≤ log.lastIndex ∧ ∀ i, (a.left log cut).refuses i = false := by
  have hsame : a.machine.Follows window log.entries a.lastApplied a.sessions
      ∧ a.machine.last ≤ a.lastApplied ∧ a.lastApplied ≤ log.lastIndex
      ∧ ∀ i, a.machine.refuses i = false := ⟨h.follows, h.last, h.le_length, h.refuses⟩
  cases cut with
  | between => exact ⟨_, _, hsame⟩
  | applied =>
    unfold Applier.left
    rw [Log.get?_eq_entryAt]
    dsimp only
    cases he : entryAt log.entries (a.lastApplied + 1) with
    | none => exact ⟨_, _, hsame⟩
    | some e =>
      obtain ⟨r, b, hrun, hx⟩ := h.executes hl he
      obtain ⟨hfollows, hlast, hrefuses, -⟩ := h.executed he (hl _ e he) hx
      dsimp only
      rw [hrun]
      exact ⟨_, _, hfollows, hlast, (le_length_of_entryAt he).2, hrefuses⟩

theorem exists_rebuild (hread : log.faults.read = false) (window : Nat) (m : Machine) (last : Nat) :
    ∃ t, Sessions.rebuild window log m last = .ok t := by
  unfold Sessions.rebuild
  split
  · exact ⟨_, rfl⟩
  · cases hrange : LogStore.range log 1 last with
    | ok entries => exact ⟨_, rfl⟩
    | error e =>
      rw [read_of_range_eq_error hrange] at hread
      cases hread

/-- **A restart.** The loop that starts over the state machine of a loop that was stopped has
applied the log up to the last command of that state machine. -/
theorem Steady.resume (h : a.Steady window [] R log.entries) (hl : Positioned log.entries)
    (hread : log.faults.read = false) (batch : Nat) (cut : Cut) :
    ∃ b, Applier.resume batch window log (a.left log cut) = .ok b
      ∧ b.machine = a.left log cut ∧ b.lastApplied = (a.left log cut).last
      ∧ Sessions.rebuild window log (a.left log cut) (a.left log cut).last = .ok b.sessions
      ∧ b.Steady window [] (fun _ _ => True) log.entries := by
  obtain ⟨k, t, hfollows, hlast, hk, hrefuses⟩ := h.left hl cut
  obtain ⟨t', hrebuild⟩ := exists_rebuild hread window (a.left log cut) (a.left log cut).last
  have hshrunk := hfollows.shrink hl hlast
  obtain rfl := hshrunk.eq_of_rebuild hl hrebuild
  unfold Applier.resume
  rw [hrebuild]
  refine ⟨_, rfl, rfl, rfl, rfl, ?_⟩
  exact
    { follows := hshrunk
      last := Nat.le_refl _
      refuses := hrefuses
      le_length := Nat.le_trans hlast hk
      passed := fun i _ _ => List.not_mem_nil
      waiting := fun _ _ _ => trivial
      answered := fun y hy => by cases hy }

end Applier

/-! ## Lives -/

/-- A loop that may be stopped, and the results that it gave, with the indexes of their entries. -/
structure ApplyLife where
  applier : Applier
  given : List (Nat × Except (Failure Error) (Option CommitResult)) := []

namespace ApplyLife

open Applier (Cut straight Alike Steady)

/-- What happens to a loop. -/
inductive Act where
  /-- It takes the next entry. -/
  | take
  /-- Its node stops and starts again. -/
  | restart (cut : Cut)

def step (batch window : Nat) (log : Log) (x : ApplyLife) : Act → Except Error ApplyLife
  | .take =>
    .ok {
      applier := x.applier.take log
      given := x.given ++ ((x.applier.give log).map (x.applier.lastApplied + 1, ·)).toList }
  | .restart cut =>
    (Applier.resume batch window log (x.applier.left log cut)).map fun applier => { x with applier }

/-- A loop that starts from nothing, after some acts. -/
def run (batch window : Nat) (log : Log) (acts : List Act) : Except Error ApplyLife :=
  acts.foldlM (step batch window log)
    { applier := { batch, sessions := Sessions.empty window } }

/-- Nothing shows that the loop was stopped. -/
structure Faithful (batch window : Nat) (log : Log) (x : ApplyLife) : Prop where
  /-- It goes on as the loop that was never stopped. -/
  rest : ∀ n, ((Applier.take log)^[n] x.applier).Alike
    (straight batch window log (x.applier.lastApplied + n))
  /-- Its entries will have the same results. -/
  gives : ∀ n, ((Applier.take log)^[n] x.applier).give log
    = (straight batch window log (x.applier.lastApplied + n)).give log
  /-- They had the same results. -/
  gave : ∀ i r, (i, r) ∈ x.given → ∃ k c, i = k + 1 ∧ r = .ok c
    ∧ (straight batch window log k).give log = some r
  /-- Wherever it is stopped now, the table that is rebuilt is the one that the loop which was never
  stopped had when the last command of the state machine was recorded. -/
  rebuilt : ∀ cut m, x.applier.left log cut = m →
    Sessions.rebuild window log m m.last = .ok (straight batch window log m.last).sessions
      ∧ m = (straight batch window log m.last).machine

variable {batch window : Nat} {log : Log} {x : ApplyLife} {acts : List Act}

/-- What every act keeps. -/
structure Sound (batch window : Nat) (log : Log) (x : ApplyLife) : Prop where
  steady : x.applier.Steady window [] (fun _ _ => True) log.entries
  gave : ∀ i r, (i, r) ∈ x.given → ∃ k c, i = k + 1 ∧ r = .ok c
    ∧ (straight batch window log k).give log = some r

/-- After `k` entries a loop is like the one that was never stopped. -/
theorem alike_straight {R : Nat → Waiter → Prop} {a : Applier} (hl : Positioned log.entries)
    (h : a.Steady window [] R log.entries) (batch : Nat) {k : Nat}
    (hk : a.lastApplied = min k log.lastIndex) : a.Alike (straight batch window log k) := by
  obtain ⟨hsteady, hlast⟩ := Applier.straight_steady (R := R) hl batch window k
  exact h.alike hsteady (hk.trans hlast.symm)

theorem Sound.step (h : Sound batch window log x) (hl : Positioned log.entries)
    (hread : log.faults.read = false) (act : Act) :
    ∃ y, x.step batch window log act = .ok y ∧ Sound batch window log y := by
  cases act with
  | take =>
    refine ⟨_, rfl, (h.steady.take hl).1, fun i r hmem => ?_⟩
    rcases List.mem_append.1 hmem with hold | hnew
    · exact h.gave i r hold
    · obtain ⟨r, hr, heq⟩ := Option.map_eq_some_iff.1 (Option.mem_toList.1 hnew)
      obtain ⟨rfl, rfl⟩ := Prod.mk.inj heq
      obtain ⟨c, rfl⟩ := h.steady.exists_of_give hl hr
      refine ⟨_, c, rfl, rfl, ?_⟩
      have halike := alike_straight hl h.steady batch (Nat.min_eq_left h.steady.le_length).symm
      rw [← halike.give_eq]
      exact hr
  | restart cut =>
    obtain ⟨b, hresume, -, -, -, hsteady⟩ := h.steady.resume hl hread batch cut
    refine ⟨{ x with applier := b }, ?_, hsteady, h.gave⟩
    exact congrArg (Except.map fun applier => { x with applier }) hresume

theorem run_concat (act : Act) :
    run batch window log (acts ++ [act])
      = (run batch window log acts >>= fun x => x.step batch window log act) := by
  unfold run
  rw [List.foldlM_append]
  refine congrArg _ (funext fun x => ?_)
  exact bind_pure _

theorem run_sound (hl : Positioned log.entries) (hread : log.faults.read = false)
    (batch window : Nat) (acts : List Act) :
    ∃ x, run batch window log acts = .ok x ∧ Sound batch window log x := by
  induction acts using List.reverseRecOn with
  | nil => exact ⟨_, rfl, Applier.steady_fresh .., fun i r hmem => by cases hmem⟩
  | append_singleton acts act ih =>
    obtain ⟨x, hx, hsound⟩ := ih
    rw [run_concat, hx]
    exact hsound.step hl hread act

theorem Sound.faithful (h : Sound batch window log x) (hl : Positioned log.entries)
    (hread : log.faults.read = false) : Faithful batch window log x := by
  have hrest : ∀ n, ((Applier.take log)^[n] x.applier).Alike
      (straight batch window log (x.applier.lastApplied + n)) := by
    intro n
    obtain ⟨hsteady, hlast⟩ := h.steady.takes hl n
    exact alike_straight hl hsteady batch hlast
  refine ⟨hrest, fun n => (hrest n).give_eq, h.gave, ?_⟩
  rintro cut _ rfl
  obtain ⟨b, -, hmachine, hlast, hrebuild, hsteady⟩ := h.steady.resume hl hread batch cut
  have halike := alike_straight hl hsteady batch (Nat.min_eq_left hsteady.le_length).symm
  rw [hlast] at halike
  exact ⟨hrebuild.trans (congrArg _ halike.sessions), hmachine.symm.trans halike.machine⟩

/-- **Stops and restarts change nothing.** -/
theorem restart_changes_nothing (batch window : Nat) (entries : List Entry) (acts : List Act) :
    ∃ x, run batch window (.ofEntries entries) acts = .ok x
      ∧ Faithful batch window (.ofEntries entries) x := by
  have hl := Log.positioned_ofEntries entries
  obtain ⟨x, hx, hsound⟩ := run_sound hl rfl batch window acts
  exact ⟨x, hx, hsound.faithful hl rfl⟩

/-- **A node that starts over what a loop left goes on as if nothing had stopped**, however many
rounds its loop makes. -/
theorem proceeds_alike_of_start {entries : List Entry} {r : Node.Remains} {settings : Settings}
    {now : Nat} {seed : Seed} {n : Node} {cut : Cut} (hlog : r.log = .ofEntries entries)
    (hrun : run batch window r.log acts = .ok x) (hleft : r.machine = x.applier.left r.log cut)
    (hstart : Node.start settings window r now seed = .ok n) (k : Nat) :
    ((Applier.proceed r.log)^[k] n.applier).Alike
      (straight batch window r.log ((Applier.proceed r.log)^[k] n.applier).lastApplied) := by
  have hl : Positioned r.log.entries := hlog ▸ Log.positioned_ofEntries entries
  have hread : r.log.faults.read = false := by
    rw [hlog]
    rfl
  obtain ⟨y, hy, hsound⟩ := run_sound hl hread batch window acts
  obtain rfl := Except.ok.inj (hy.symm.trans hrun)
  -- the loop of the node is the one that resumes over the state machine
  obtain ⟨a, hresume, -, -, -, hsteady⟩ :=
    hsound.steady.resume hl hread settings.consensus.commit.batch cut
  rw [← hleft] at hresume
  obtain rfl := Except.ok.inj (hresume.symm.trans (Applier.resume_of_start hstart))
  obtain ⟨j, hj⟩ := Applier.proceeds_eq_takes hl n.applier k
  have hlater := (hsteady.takes hl j).1
  rw [hj]
  exact alike_straight hl hlater batch (Nat.min_eq_left hlater.le_length).symm

end ApplyLife

end Raft
