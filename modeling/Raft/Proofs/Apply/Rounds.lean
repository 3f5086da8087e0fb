import Raft.Proofs.Log.Merge
import Raft.Proofs.Apply.Steady

/-!
# The apply loop under any schedule

An apply loop that starts from nothing, beside a log that grows. Commit signals and ticks come in
any order, and the state machine may fail at any indexes. Whatever the schedule is, what was applied
depends on the last applied index alone.

* `ApplyRun.run batch window failing entries acts` is the loop after some acts.
* `ApplyRun.Sound`: what every act keeps.
* `ApplyRun.Outcome`: what a schedule comes to.
* `apply_exactly_once` is the result.
-/

namespace Raft

/-- An apply loop beside its log. -/
structure ApplyRun where
  log : Log
  schedule : ApplySchedule
  applier : Applier

namespace ApplyRun

/-- What can happen to an apply loop and its log. -/
inductive Act where
  /-- The loop takes a commit signal. -/
  | signal (i : Nat)
  /-- The interval of the loop has passed. -/
  | tick
  /-- Entries come to the end of the log. -/
  | append (entries : List Entry)
  | register (i : Nat) (x : Waiter)
  | withdraw (request : String)

/-- The act lets the loop work a round. -/
def Act.IsRound : Act → Prop
  | .signal _ => True
  | .tick => True
  | _ => False

/-- The commit index that an act tells the loop. -/
def Act.told : Act → Nat
  | .signal i => i
  | _ => 0

/-- The greatest commit index that was signalled. -/
def largest (acts : List Act) : Nat := acts.foldl (fun i a => max i a.told) 0

def round (x : ApplyRun) : ApplyRun :=
  let (schedule, applier) := x.schedule.round x.log x.applier
  { x with schedule, applier }

def step (x : ApplyRun) : Act → ApplyRun
  | .signal i =>
    let (schedule, applier) := x.schedule.signal x.log x.applier i
    { x with schedule, applier }
  | .tick =>
    let y := x.round
    { y with schedule := { y.schedule with next := y.schedule.next + y.schedule.interval } }
  | .append entries => { x with log := Action.state ((Log.append entries).run x.log) }
  | .register i w =>
    { x with applier := { x.applier with waiters := x.applier.waiters.register i w } }
  | .withdraw request =>
    { x with applier := { x.applier with waiters := (x.applier.waiters.cancel request).2 } }

/-- A loop that has applied nothing, over a log of these entries and a state machine that fails at
these indexes. -/
def init (batch window : Nat) (failing : List Nat) (entries : List Entry) : ApplyRun where
  log := .ofEntries entries
  schedule := { interval := 0, next := 0 }
  applier := { batch, machine := { failing }, sessions := Sessions.empty window }

def run (batch window : Nat) (failing : List Nat) (entries : List Entry) (acts : List Act) :
    ApplyRun := acts.foldl step (init batch window failing entries)

open Applier (Steady Halted refusal)

variable {batch window : Nat} {failing : List Nat} {entries : List Entry} {acts : List Act}
  {a : Act} {x : ApplyRun}

/-- What a round keeps of a loop. -/
structure Kept (window : Nat) (failing : List Nat) (R : Nat → Waiter → Prop) (l : List Entry)
    (a b : Applier) : Prop where
  steady : b.Steady window failing R l
  le_commit : b.lastApplied ≤ b.commit
  commit_eq : b.commit = a.commit
  batch_eq : b.batch = a.batch

/-- A round that goes on has come as far as it can; one that fails is the last one. -/
theorem round_cases {c : ApplySchedule} {log : Log} {b : Applier} {R : Nat → Waiter → Prop}
    (hl : Positioned log.entries) (h : b.Steady window failing R log.entries)
    (hcommit : b.lastApplied ≤ b.commit) (hrun : c.ended = none) :
    Kept window failing R log.entries b (c.round log b).2
      ∧ (((c.round log b).1.ended = none
          ∧ (c.round log b).2.lastApplied = max b.lastApplied (b.reach log))
        ∨ ∃ f, (c.round log b).1.ended = some (.error f) ∧ Halted log b (c.round log b).2 f) := by
  have hstep : ∀ d e r d', Kept window failing R log.entries b d →
      entryAt log.entries (d.lastApplied + 1) = some e → e.index = d.lastApplied + 1 →
      d.lastApplied < d.commit → d.Executed e r d' →
      Kept window failing R log.entries b (d'.conclude e r) := by
    intro d e r d' hd he hindex hlt hx
    refine ⟨hd.steady.conclude he hindex hx, ?_, hx.commit_eq.trans hd.commit_eq, ?_⟩
    · show e.index ≤ d'.commit
      rw [hx.commit_eq]
      omega
    · cases hx <;> exact hd.batch_eq
  have hprocess := Applier.process_ensures hl hstep ⟨h, hcommit, rfl, rfl⟩
  unfold ApplySchedule.round
  rw [hrun]
  dsimp only
  cases hresult : Applier.process log b with
  | ok u d =>
    obtain ⟨hkept, hreach⟩ := hprocess.ok hresult
    exact ⟨hkept, Or.inl ⟨hrun, hreach⟩⟩
  | error f d =>
    obtain ⟨hkept, hhalted⟩ := hprocess.error hresult
    exact ⟨hkept, Or.inr ⟨f, rfl, hhalted⟩⟩

/-- How a loop that has applied the log up to the index `k` can have ended. -/
inductive Ends (batch window : Nat) (failing : List Nat) (l : List Entry) (k : Nat) :
    Except (Failure Error) Unit → Prop
  /-- The state machine fails at the next entry. -/
  | refused (heffect : TakesEffect window l (k + 1)) (hfails : k + 1 ∈ failing) :
      Ends batch window failing l k (refusal (k + 1))
  /-- The batch ends beyond all indexes. -/
  | overflow (hlarge : wordSize ≤ k + batch) : Ends batch window failing l k (.error .overflow)

/-- What a round comes to that starts behind the index `k` and can go to the index `n`: it has gone
there, or it is the last one. -/
inductive Worked (batch window : Nat) (failing : List Nat) (l : List Entry) (k n : Nat)
    (a : Applier) : Option (Except (Failure Error) Unit) → Prop
  | on (hreach : a.lastApplied = max k n) : Worked batch window failing l k n a none
  | off (heffect : TakesEffect window l (a.lastApplied + 1)) (hfails : a.lastApplied + 1 ∈ failing)
      (hlt : a.lastApplied < n) :
      Worked batch window failing l k n a (some (refusal (a.lastApplied + 1)))
  | overflow (hlarge : wordSize ≤ k + batch) :
      Worked batch window failing l k n a (some (.error .overflow))

/-- How far a round can go after the signals up to `top`. -/
def bound (batch top : Nat) (x : ApplyRun) : Nat :=
  min top (min (x.applier.lastApplied + batch) x.log.lastIndex)

/-- What every act keeps, said of the waiters that were registered and of the greatest signal. -/
structure Sound (batch window : Nat) (failing : List Nat) (R : Nat → Waiter → Prop) (top : Nat)
    (x : ApplyRun) : Prop where
  positioned : Positioned x.log.entries
  readable : x.log.faults.read = false
  steady : x.applier.Steady window failing R x.log.entries
  batch_eq : x.applier.batch = batch
  applied_le : x.applier.lastApplied ≤ x.applier.commit
  commit_le : x.applier.commit ≤ top
  commit_eq : x.schedule.ended = none → x.applier.commit = top
  ended : ∀ r, x.schedule.ended = some r →
    Ends batch window failing x.log.entries x.applier.lastApplied r

variable {R : Nat → Waiter → Prop} {top : Nat}

/-- **A round.** -/
theorem Sound.round (h : Sound batch window failing R top x) (hrun : x.schedule.ended = none) :
    Sound batch window failing R top x.round
      ∧ Worked batch window failing x.log.entries x.applier.lastApplied (x.bound batch top)
        x.round.applier x.round.schedule.ended := by
  obtain ⟨hkept, hcases⟩ := round_cases h.positioned h.steady h.applied_le hrun
  have htop := h.commit_eq hrun
  have hreach : x.applier.reach x.log = x.bound batch top := by
    unfold Applier.reach bound
    rw [htop, h.batch_eq]
  have hends : Worked batch window failing x.log.entries x.applier.lastApplied (x.bound batch top)
        x.round.applier x.round.schedule.ended
      ∧ ∀ r, x.round.schedule.ended = some r →
        Ends batch window failing x.log.entries x.round.applier.lastApplied r := by
    unfold ApplyRun.round
    dsimp only
    rcases hcases with ⟨hgoes, hlast⟩ | ⟨f, hends, hhalted⟩
    · rw [hgoes]
      rw [hreach] at hlast
      exact ⟨.on hlast, fun r hr => by cases hr⟩
    · rw [hends]
      cases hhalted with
      | overflow hf hb hlarge =>
        rw [h.batch_eq] at hlarge
        rw [hf, hb]
        refine ⟨.overflow hlarge, ?_⟩
        rintro _ ⟨⟩
        exact .overflow hlarge
      | unread hread => exact absurd (h.readable.symm.trans hread) Bool.false_ne_true
      | refused e he hlt hrefused =>
        obtain ⟨heffect, hfails, hf⟩ := hkept.steady.refused h.positioned he hrefused
        rw [hreach] at hlt
        rw [hf]
        refine ⟨.off heffect hfails hlt, ?_⟩
        rintro _ ⟨⟩
        exact .refused heffect hfails
  obtain ⟨hworked, hended⟩ := hends
  have hcommit := hkept.commit_eq.trans htop
  exact ⟨⟨h.positioned, h.readable, hkept.steady, hkept.batch_eq.trans h.batch_eq,
    hkept.le_commit, Nat.le_of_eq hcommit, fun _ => hcommit, hended⟩, hworked⟩

/-! ## Acts -/

theorem largest_concat : largest (acts ++ [a]) = max (largest acts) a.told := by
  unfold largest
  rw [List.foldl_append]
  rfl

theorem Sound.widen {R' : Nat → Waiter → Prop} (h : Sound batch window failing R top x)
    (hR : ∀ i w, R i w → R' i w) : Sound batch window failing R' top x :=
  { h with steady := h.steady.widen hR }

theorem Sound.raise (h : Sound batch window failing R top x) (hrun : x.schedule.ended = none)
    (i : Nat) :
    Sound batch window failing R (max top i) { x with applier := x.applier.signal i } :=
  { h with
    steady := h.steady.signal
    applied_le := Nat.le_trans h.applied_le (Nat.le_max_left _ _)
    commit_le := by
      rw [← h.commit_eq hrun]
      exact Nat.le_refl _
    commit_eq := fun _ => congrArg (max · i) (h.commit_eq hrun)
    ended := fun r hr => by cases hrun.symm.trans hr }

theorem step_signal (hrun : x.schedule.ended = none) (i : Nat) :
    x.step (.signal i) = { x with applier := x.applier.signal i }.round := by
  have hsignal : x.schedule.signal x.log x.applier i
      = x.schedule.round x.log (x.applier.signal i) := by
    unfold ApplySchedule.signal
    rw [hrun]
  show { x with
    schedule := (x.schedule.signal x.log x.applier i).1
    applier := (x.schedule.signal x.log x.applier i).2 } = _
  rw [hsignal]
  rfl

theorem Sound.works (h : Sound batch window failing R top x) (ha : a.IsRound)
    (hrun : x.schedule.ended = none) :
    Sound batch window failing R (max top a.told) (x.step a)
      ∧ Worked batch window failing x.log.entries x.applier.lastApplied
        (x.bound batch (max top a.told)) (x.step a).applier (x.step a).schedule.ended := by
  cases a with
  | signal i =>
    rw [step_signal hrun]
    exact (h.raise hrun i).round hrun
  | tick =>
    obtain ⟨hsound, hworked⟩ := h.round hrun
    have htold : max top Act.tick.told = top := Nat.max_eq_left (Nat.zero_le _)
    rw [htold]
    exact ⟨{ hsound with }, hworked⟩
  | append => cases ha
  | register => cases ha
  | withdraw => cases ha

theorem Ends.append {l : List Entry} {k : Nat} {r : Except (Failure Error) Unit}
    (h : Ends batch window failing l k r) (added : List Entry) :
    Ends batch window failing (l ++ added) k r := by
  cases h with
  | refused heffect hfails =>
    have hle : k + 1 ≤ l.length := by
      obtain ⟨e, he, -⟩ := heffect
      exact (le_length_of_entryAt he).2
    exact .refused (heffect.congr (List.take_append_of_le_length hle)) hfails
  | overflow hlarge => exact .overflow hlarge

theorem Sound.append (h : Sound batch window failing R top x) (new : List Entry) :
    Sound batch window failing R top (x.step (.append new)) := by
  obtain ⟨added, hentries, hplace, hfaults⟩ := x.log.append_state new
  have hle := h.steady.le_length
  have hkept : (x.log.entries ++ added).take x.applier.lastApplied
      = x.log.entries.take x.applier.lastApplied := List.take_append_of_le_length hle
  constructor
  · show Positioned (Action.state ((Log.append new).run x.log)).entries
    rw [hentries]
    exact h.positioned.append hplace
  · exact (congrArg LogFaults.read hfaults).trans h.readable
  · show x.applier.Steady window failing R (Action.state ((Log.append new).run x.log)).entries
    rw [hentries]
    refine h.steady.log hkept ?_
    rw [List.length_append]
    exact Nat.le_add_right_of_le hle
  · exact h.batch_eq
  · exact h.applied_le
  · exact h.commit_le
  · exact h.commit_eq
  · intro r hr
    show Ends batch window failing (Action.state ((Log.append new).run x.log)).entries
      x.applier.lastApplied r
    rw [hentries]
    exact (h.ended r hr).append added

theorem Sound.register (h : Sound batch window failing R top x) {i : Nat} {w : Waiter}
    (hR : R i w) : Sound batch window failing R top (x.step (.register i w)) :=
  { h with
    steady := { h.steady with
      waiting := by
        intro j y hy
        rcases Waiters.has_register hy with hold | ⟨rfl, rfl⟩
        · exact h.steady.waiting j y hold
        · exact hR } }

theorem Sound.withdraw (h : Sound batch window failing R top x) (request : String) :
    Sound batch window failing R top (x.step (.withdraw request)) :=
  { h with
    steady := { h.steady with
      waiting := fun j y hy => h.steady.waiting j y (Waiters.has_cancel hy) } }

theorem step_ended (ha : a.IsRound) (hended : x.schedule.ended ≠ none) :
    ∃ next, x.step a = { x with schedule := { x.schedule with next } } := by
  cases a with
  | signal i =>
    refine ⟨x.schedule.next, ?_⟩
    unfold step ApplySchedule.signal
    dsimp only
    split
    · rfl
    · rename_i hrun
      exact absurd hrun hended
  | tick =>
    refine ⟨x.schedule.next + x.schedule.interval, ?_⟩
    unfold step ApplyRun.round ApplySchedule.round
    dsimp only
    split
    · rfl
    · rename_i hrun
      exact absurd hrun hended
  | append => cases ha
  | register => cases ha
  | withdraw => cases ha

theorem Sound.idle (h : Sound batch window failing R top x) (ha : a.IsRound)
    (hended : x.schedule.ended ≠ none) :
    Sound batch window failing R (max top a.told) (x.step a) := by
  obtain ⟨next, hstep⟩ := step_ended ha hended
  rw [hstep]
  exact { h with
    commit_le := Nat.le_trans h.commit_le (Nat.le_max_left _ _)
    commit_eq := fun hrun => absurd hrun hended }

theorem told_eq_zero (ha : ¬ a.IsRound) : a.told = 0 := by
  cases a with
  | signal => exact absurd trivial ha
  | tick => rfl
  | append => rfl
  | register => rfl
  | withdraw => rfl

theorem Sound.step
    (h : Sound batch window failing (fun i w => .register i w ∈ acts) (largest acts) x) (a : Act) :
    Sound batch window failing (fun i w => .register i w ∈ acts ++ [a]) (largest (acts ++ [a]))
      (x.step a) := by
  have hwide := h.widen fun i w hmem => List.mem_append_left [a] hmem
  rw [largest_concat]
  by_cases ha : a.IsRound
  · by_cases hrun : x.schedule.ended = none
    · exact (hwide.works ha hrun).1
    · exact hwide.idle ha hrun
  · rw [told_eq_zero ha, Nat.max_eq_left (Nat.zero_le _)]
    cases a with
    | signal => exact absurd trivial ha
    | tick => exact absurd trivial ha
    | append new => exact hwide.append new
    | register i w => exact hwide.register (List.mem_append_right _ (List.mem_singleton_self _))
    | withdraw request => exact hwide.withdraw request

theorem run_concat :
    run batch window failing entries (acts ++ [a])
      = (run batch window failing entries acts).step a := by
  unfold run
  rw [List.foldl_append]
  rfl

theorem run_sound (batch window : Nat) (failing : List Nat) (entries : List Entry)
    (acts : List Act) :
    Sound batch window failing (fun i w => .register i w ∈ acts) (largest acts)
      (run batch window failing entries acts) := by
  induction acts using List.reverseRecOn with
  | nil =>
    exact ⟨Log.positioned_ofEntries entries, rfl, Applier.steady_fresh .., rfl, Nat.le_refl _,
      Nat.le_refl _, fun _ => rfl, fun r hr => by cases hr⟩
  | append_singleton acts a ih =>
    rw [run_concat]
    exact ih.step a

/-- The loop when the clock has been moved. -/
def advance (x : ApplyRun) (time : Nat) : ApplyRun :=
  { x with
    schedule := (x.schedule.advance x.log x.applier time).1
    applier := (x.schedule.advance x.log x.applier time).2 }

/-- **Moving the clock is a number of ticks.** -/
theorem advance_eq_ticks (x : ApplyRun) (time : Nat) :
    ∃ n, x.advance time = (List.replicate n Act.tick).foldl step x := by
  unfold advance ApplySchedule.advance
  generalize time + 1 - x.schedule.next = fuel
  induction fuel generalizing x with
  | zero => exact ⟨0, rfl⟩
  | succ fuel ih =>
    unfold ApplySchedule.runTicks
    split
    · obtain ⟨n, hn⟩ := ih (x.step .tick)
      exact ⟨n + 1, hn⟩
    · exact ⟨0, rfl⟩

theorem Sound.tick (h : Sound batch window failing R top x) :
    Sound batch window failing R top (x.step .tick) := by
  have htop : max top Act.tick.told = top := Nat.max_eq_left (Nat.zero_le _)
  have hround : Act.tick.IsRound := trivial
  rw [← htop]
  by_cases hrun : x.schedule.ended = none
  · exact (h.works hround hrun).1
  · exact h.idle hround hrun

theorem Sound.advance (h : Sound batch window failing R top x) (time : Nat) :
    Sound batch window failing R top (x.advance time) := by
  obtain ⟨n, hticks⟩ := x.advance_eq_ticks time
  rw [hticks]
  clear hticks
  induction n generalizing x with
  | zero => exact h
  | succ n ih => exact ih h.tick

/-! ## Schedules -/

/-- The entries that took effect. -/
def done (window : Nat) (x : ApplyRun) : List Entry :=
  effective window (x.log.entries.take x.applier.lastApplied)

/-- Where the state machine would fail. -/
def Fails (window : Nat) (failing : List Nat) (x : ApplyRun) (i : Nat) : Prop :=
  i ∈ failing ∧ TakesEffect window x.log.entries i

/-- What a schedule comes to. -/
structure Outcome (batch window : Nat) (failing : List Nat) (acts : List Act) (x : ApplyRun) :
    Prop where
  /-- The state machine has what took effect, and nothing else. -/
  applied : x.applier.machine.applied = (x.done window).filterMap Entry.applied?
  /-- In the order of the log. -/
  rising : x.applier.machine.applied.Pairwise fun a b => a.index < b.index
  /-- No request took effect twice. -/
  once : (requests (x.done window)).Nodup
  /-- The table remembers what took effect. -/
  sessions : ∀ client, x.applier.sessions.session client = remembered window client (x.done window)
  /-- It is the table of one pass over the applied part of the log. -/
  replay : Replay.of window (x.log.entries.take x.applier.lastApplied)
    = ⟨x.applier.sessions, x.applier.machine.applied⟩
  le_log : x.applier.lastApplied ≤ x.log.lastIndex
  le_largest : x.applier.lastApplied ≤ largest acts
  /-- The loop does not go beyond a failure. -/
  passed : ∀ i, x.Fails window failing i → x.applier.lastApplied < i
  /-- It has ended with a failure behind the entries that it applied. -/
  ended : ∀ r, x.schedule.ended = some r →
    r = refusal (x.applier.lastApplied + 1) ∧ x.Fails window failing (x.applier.lastApplied + 1)
      ∨ r = .error .overflow ∧ wordSize ≤ x.applier.lastApplied + batch
  /-- A round goes as far as the signals, the batch and the log let it if nothing fails. -/
  advances : ∀ a, a.IsRound → x.schedule.ended = none → x.applier.lastApplied + batch < wordSize →
    (∀ i ≤ x.bound batch (largest (acts ++ [a])), ¬ x.Fails window failing i) →
    (x.step a).schedule.ended = none
      ∧ (x.step a).applier.lastApplied
        = max x.applier.lastApplied (x.bound batch (largest (acts ++ [a])))
  /-- A round in which something fails ends the loop before it. -/
  fails : ∀ a, a.IsRound → x.schedule.ended = none → x.applier.lastApplied + batch < wordSize →
    ∀ i ≤ x.bound batch (largest (acts ++ [a])), x.Fails window failing i →
    (∀ j < i, ¬ x.Fails window failing j) →
    (x.step a).schedule.ended = some (refusal i) ∧ (x.step a).applier.lastApplied + 1 = i
  /-- Who was answered had waited on an entry that was applied. -/
  answered : ∀ y ∈ x.applier.answers,
    ∃ i w, .register i w ∈ acts ∧ w.caller = y.1 ∧ i ≤ x.applier.lastApplied

theorem step_log (x : ApplyRun) (ha : a.IsRound) : (x.step a).log = x.log := by
  cases a with
  | signal => rfl
  | tick => rfl
  | append => cases ha
  | register => cases ha
  | withdraw => cases ha

theorem Sound.passed (h : Sound batch window failing R top x) {i : Nat}
    (hi : x.Fails window failing i) : x.applier.lastApplied < i := by
  rw [← Nat.not_le]
  exact fun hle => h.steady.passed i hle hi.2 hi.1

/-- A round of a sound loop. Nothing fails before the index at which the loop ends. -/
theorem Sound.round_outcome
    (h : Sound batch window failing (fun i w => .register i w ∈ acts) (largest acts) x)
    (ha : a.IsRound) (hrun : x.schedule.ended = none)
    (hbatch : x.applier.lastApplied + batch < wordSize) :
    (∀ i, x.Fails window failing i → (x.step a).applier.lastApplied < i)
      ∧ ((x.step a).schedule.ended = none ∧ (x.step a).applier.lastApplied
          = max x.applier.lastApplied (x.bound batch (largest (acts ++ [a])))
        ∨ (x.step a).schedule.ended = some (refusal ((x.step a).applier.lastApplied + 1))
          ∧ x.Fails window failing ((x.step a).applier.lastApplied + 1)
          ∧ (x.step a).applier.lastApplied < x.bound batch (largest (acts ++ [a]))) := by
  obtain ⟨hsound, hworked⟩ := h.works ha hrun
  rw [← largest_concat] at hworked
  constructor
  · intro i hi
    apply hsound.passed
    unfold Fails
    rwa [step_log x ha]
  · generalize (x.step a).schedule.ended = r at hworked
    cases hworked with
    | on hreach => exact Or.inl ⟨rfl, hreach⟩
    | off heffect hfails hlt => exact Or.inr ⟨rfl, ⟨hfails, heffect⟩, hlt⟩
    | overflow hlarge => omega

theorem Sound.outcome
    (h : Sound batch window failing (fun i w => .register i w ∈ acts) (largest acts) x) :
    x.Outcome batch window failing acts := by
  have hmatches := h.steady.follows.matches
  constructor
  case applied => exact hmatches.applied
  case rising =>
    rw [← h.steady.follows.applied_eq]
    exact (Replay.recorded h.positioned _).2
  case once => exact hmatches.nodup
  case sessions => exact hmatches.session
  case replay => exact h.steady.follows.replay
  case le_log => exact h.steady.le_length
  case le_largest => exact Nat.le_trans h.applied_le h.commit_le
  case passed => exact fun i hi => h.passed hi
  case ended =>
    intro r hr
    cases h.ended r hr with
    | refused heffect hfails => exact Or.inl ⟨rfl, hfails, heffect⟩
    | overflow hlarge => exact Or.inr ⟨rfl, hlarge⟩
  case advances =>
    intro a ha hrun hbatch hnone
    obtain ⟨-, hgoes | ⟨-, hfails, hlt⟩⟩ := h.round_outcome ha hrun hbatch
    · exact hgoes
    · exact absurd hfails (hnone _ hlt)
  case fails =>
    intro a ha hrun hbatch i hi hfails hfirst
    obtain ⟨hpassed, ⟨-, hreach⟩ | ⟨hends, hfails', -⟩⟩ := h.round_outcome ha hrun hbatch
    · have := hpassed i hfails
      omega
    · have hlt := hpassed i hfails
      have hge : ¬ (x.step a).applier.lastApplied + 1 < i := fun hlt' => hfirst _ hlt' hfails'
      -- the first failing entry is the one that the loop stands before
      obtain rfl : (x.step a).applier.lastApplied + 1 = i := by omega
      exact ⟨hends, rfl⟩
  case answered => exact h.steady.answered

/-- What a schedule comes to does not change when the clock is moved afterwards, whatever rounds that
makes the loop work. -/
theorem outcome_advance (batch window : Nat) (failing : List Nat) (entries : List Entry)
    (acts : List Act) (time : Nat) :
    ((run batch window failing entries acts).advance time).Outcome batch window failing acts :=
  ((run_sound batch window failing entries acts).advance time).outcome

/-- **Whatever the schedule is, every request takes effect once, in the order of the log.** -/
theorem apply_exactly_once (batch window : Nat) (failing : List Nat) (entries : List Entry)
    (acts : List Act) :
    (run batch window failing entries acts).Outcome batch window failing acts :=
  (run_sound batch window failing entries acts).outcome

/-- A request that comes twice takes effect once; the loop ends before the entry that fails. -/
example :
    let x := run 2 1024 [3] [⟨1, 1, .command ⟨"a", 7, [1]⟩⟩, ⟨2, 1, .command ⟨"a", 7, [2]⟩⟩,
      ⟨3, 1, .command ⟨"a", 8, [3]⟩⟩] [.tick, .signal 9, .tick]
    x.applier.machine.applied = [⟨1, 1, [1]⟩] ∧ x.applier.lastApplied = 2
      ∧ x.schedule.ended.isSome = true := by
  decide +kernel

end ApplyRun

end Raft
