import Raft.Client.Gateway

/-!
# The tries of a request

A gateway sees a request through in a loop: it chooses what to do next, asks a node, and reacts to
the outcome. What the transport makes of the tries is given as a list; the loop goes as far as this
list does, or until it gives a result back.

* `Gateway.Outcome`, `Gateway.Attempt`: what becomes of a try, and what is known of it then.
* `Gateway.pursue`: the loop. `Gateway.Course` is what it comes to.
* `Gateway.verdict r answer`: the result that an answer decides on, if it decides.
* `Gateway.Pursues`: the same loop by what one turn of it can do, proved in `Gateway.pursues`.
-/

namespace Raft.Gateway

/-- What becomes of one try: the answer, the time until it is there, and the draw for the pause. -/
structure Outcome where
  answer : Except ClientError ClientResponse
  time : Nat
  draw : Nat

/-- One try of a request. -/
structure Attempt where
  /-- The leader that the gateway knew of. -/
  hint : Option NodeId
  target : NodeId
  request : ClientRequest
  start : Nat
  /-- The time that was granted. -/
  wait : Nat
  outcome : Outcome
  /-- How long the gateway sleeps afterwards. -/
  pause : Nat

namespace Attempt

def stop (a : Attempt) : Nat := a.start + a.outcome.time

def Timely (a : Attempt) : Prop := a.outcome.time ≤ a.wait

instance (a : Attempt) : Decidable a.Timely := inferInstanceAs (Decidable (_ ≤ _))

/-- The gateway knew of no leader. -/
def isUnguided (a : Attempt) : Bool := a.hint.isNone

end Attempt

/-- The tries of a request, what is given back if the loop came to an end, and the gateway then. -/
structure Course where
  attempts : List Attempt
  result : Option GatewayResult
  gateway : Gateway

def Course.prepend (c : Course) (a : Attempt) : Course := { c with attempts := a :: c.attempts }

/-- Sees a request through, as far as the outcomes of the tries are given. -/
def pursue (g : Gateway) (s : Submission) (now : Nat) (outcomes : List Outcome) : Course :=
  match g.move s now with
  | (.give r, g, _) => ⟨[], some r, g⟩
  | (.ask target wait, next, asked) =>
    match outcomes with
    | [] => ⟨[], none, g⟩
    | o :: rest =>
      let a : Attempt := ⟨g.hint, target, asked.request, now, wait, o, 0⟩
      match next.react asked target o.answer (now + o.time) o.draw with
      | (.give r, g, _) => ⟨[a], some r, g⟩
      | (.again pause, g, s) =>
        (pursue g s (now + o.time + pause) rest).prepend { a with pause := pause }

/-! ## One turn -/

variable {g : Gateway} {s : Submission} {now draw : Nat} {target : NodeId}
  {answer : Except ClientError ClientResponse}

@[simp] theorem members_pick (g : Gateway) : g.pick.2.members = g.members := by
  unfold pick
  split <;> rfl

@[simp] theorem settings_pick (g : Gateway) : g.pick.2.settings = g.settings := by
  unfold pick
  split <;> rfl

/-- There are tries left and there is time left. -/
def Goes (g : Gateway) (s : Submission) (now : Nat) : Prop :=
  (0 < g.settings.retry.maxRetries → s.tries < g.settings.retry.maxRetries) ∧ now < s.deadline

/-- Either the request ends with an error, or the node that was picked is asked. -/
theorem move_cases (g : Gateway) (s : Submission) (now : Nat) :
    (¬ g.Goes s now ∧ ∃ e, g.move s now = (.give (.error (.error e)), g, s))
      ∨ g.Goes s now ∧ g.move s now
        = (.ask g.pick.1 (min g.settings.requestTimeout (s.deadline - now)), g.pick.2,
          { s with tries := s.tries + 1 }) := by
  unfold move Goes
  split
  · rename_i hspent
    exact Or.inl ⟨fun h => by have := h.1 hspent.1; omega, _, rfl⟩
  · rename_i hleft
    split
    · rename_i hlate
      exact Or.inl ⟨fun h => by have := h.2; omega, _, rfl⟩
    · rename_i hearly
      refine Or.inr ⟨⟨fun h => by omega, by omega⟩, ?_⟩
      rw [← settings_pick g]

/-- The result that an answer decides on, if it decides. -/
def verdict (r : ClientRequest) : Except ClientError ClientResponse → Option GatewayResult
  | .ok (.committed result) => some (.ok result)
  | .ok (.stale _) => some (.error (.error (.stale r.client r.sequence)))
  | .ok (.notLeader _) => none
  | .error e => if e.isRetryable then none else some (.error (.error e))

theorem verdict_eq_ok_iff {r : ClientRequest} {result : CommitResult} :
    verdict r answer = some (.ok result) ↔ answer = .ok (.committed result) := by
  cases answer with
  | ok response => cases response <;> simp [verdict]
  | error e => cases hretry : e.isRetryable <;> simp [verdict, hretry]

theorem verdict_ne_overflow (r : ClientRequest) (answer : Except ClientError ClientResponse) :
    verdict r answer ≠ some (.error .overflow) := by
  cases answer with
  | ok response => cases response <;> simp [verdict]
  | error e => cases hretry : e.isRetryable <;> simp [verdict, hretry]

/-- The other node that an answer sends the gateway to. -/
def redirect? (target : NodeId) : Except ClientError ClientResponse → Option NodeId
  | .ok (.notLeader hint) => hint.filter (· ≠ target)
  | _ => none

theorem pause_congr {g' : Gateway} {s' : Submission} (hsettings : g'.settings = g.settings)
    (htries : s'.tries = s.tries) (hdeadline : s'.deadline = s.deadline) :
    g'.pause s' now draw = g.pause s now draw := by
  unfold pause
  rw [hsettings, htries, hdeadline]

theorem pause_eq_ok_iff {pause : Nat} : g.pause s now draw = .ok pause
    ↔ ∃ delay, g.settings.retry.backoff (ε := ClientError) (s.tries - 1) draw = .ok delay
      ∧ pause = min delay (s.deadline - now) := by
  unfold Gateway.pause
  cases g.settings.retry.backoff (ε := ClientError) (s.tries - 1) draw with
  | ok delay => simp [Except.map, eq_comm]
  | error f => simp [Except.map]

theorem pause_eq_error_iff {f : Failure ClientError} : g.pause s now draw = .error f
    ↔ g.settings.retry.backoff (s.tries - 1) draw = .error f := by
  unfold Gateway.pause
  cases g.settings.retry.backoff (ε := ClientError) (s.tries - 1) draw <;> simp [Except.map]

/-- How long the gateway sleeps after an answer that does not decide: not at all if it was
redirected. -/
def respite (g : Gateway) (s : Submission) (target : NodeId)
    (answer : Except ClientError ClientResponse) (now draw : Nat) :
    Except (Failure ClientError) Nat :=
  if (redirect? target answer).isSome then .ok 0 else g.pause s now draw

/-- The backoff as far as time is left, and none after a redirect. -/
theorem backsOff_of_respite {pause : Nat} (h : g.respite s target answer now draw = .ok pause) :
    if (redirect? target answer).isSome then pause = 0
    else ∃ delay, g.settings.retry.backoff (ε := ClientError) (s.tries - 1) draw = .ok delay
      ∧ pause = min delay (s.deadline - now) := by
  unfold respite at h
  split at h
  · rename_i hredirect
    rw [if_pos hredirect]
    exact (Except.ok.inj h).symm
  · rename_i hredirect
    rw [if_neg hredirect]
    exact pause_eq_ok_iff.1 h

theorem respite_le {pause : Nat} (h : g.respite s target answer now draw = .ok pause) :
    pause ≤ s.deadline - now := by
  have hbacksOff := backsOff_of_respite h
  split at hbacksOff
  · rw [hbacksOff]
    exact Nat.zero_le _
  · obtain ⟨delay, -, rfl⟩ := hbacksOff
    exact Nat.min_le_right ..

theorem overflow_of_respite {f : Failure ClientError}
    (h : g.respite s target answer now draw = .error f) :
    f = .overflow ∧ g.settings.retry.backoff (s.tries - 1) draw = .error f := by
  unfold respite at h
  split at h
  · cases h
  · have hbackoff := pause_eq_error_iff.1 h
    exact ⟨(sum_eq_error_iff.1 hbackoff).1, hbackoff⟩

theorem respite_congr {g' : Gateway} {s' : Submission} (hsettings : g'.settings = g.settings)
    (htries : s'.tries = s.tries) (hdeadline : s'.deadline = s.deadline) :
    g'.respite s' target answer now draw = g.respite s target answer now draw := by
  unfold respite
  rw [pause_congr hsettings htries hdeadline]

/-- Either the answer decides, or the gateway tries again, if it can. -/
theorem react_cases (g : Gateway) (s : Submission) (target : NodeId)
    (answer : Except ClientError ClientResponse) (now draw : Nat) :
    (∃ v hint, verdict s.request answer = some v ∧ (∀ r, v = .ok r → hint = some target)
        ∧ g.react s target answer now draw = (.give v, { g with hint := hint }, s))
      ∨ verdict s.request answer = none ∧ ∃ hint e, g.react s target answer now draw
        = (.after (g.respite s target answer now draw), { g with hint := hint },
          { s with lastError := e }) := by
  cases answer with
  | ok response =>
    cases response with
    | committed r => exact Or.inl ⟨.ok r, some target, rfl, fun _ _ => rfl, rfl⟩
    | stale latest => exact Or.inl ⟨_, g.hint, rfl, nofun, rfl⟩
    -- the only answer that may guide the next try
    | notLeader hint =>
      have hpause : g.pause { s with lastError := .notLeader hint } now draw = g.pause s now draw :=
        pause_congr rfl rfl rfl
      refine Or.inr ⟨rfl, ?_⟩
      unfold react respite
      dsimp only
      rw [hpause]
      split
      · rename_i leader hother
        have hredirect : redirect? target (.ok (.notLeader hint)) = some leader := hother
        rw [if_pos (by rw [hredirect]; rfl)]
        exact ⟨some leader, _, rfl⟩
      · rename_i hother
        have hredirect : redirect? target (.ok (.notLeader hint)) = none := hother
        rw [if_neg (by rw [hredirect]; exact nofun)]
        exact ⟨none, _, rfl⟩
  | error e =>
    have hpause : ∀ g' : Gateway, g'.settings = g.settings →
        g'.pause { s with lastError := e } now draw = g.pause s now draw :=
      fun g' hsettings => pause_congr hsettings rfl rfl
    have hredirect : ¬ (redirect? target (.error e)).isSome = true := nofun
    unfold react verdict respite
    rw [if_neg hredirect]
    dsimp only
    by_cases hretry : e.isRetryable = true
    · rw [if_pos hretry, if_pos hretry]
      refine Or.inr ⟨rfl, ?_⟩
      -- a leader that cannot be reached is forgotten
      by_cases hleader : g.hint = some target
      · rw [if_pos hleader, hpause { g with hint := none } rfl]
        exact ⟨none, e, rfl⟩
      · rw [if_neg hleader, hpause g rfl]
        exact ⟨g.hint, e, rfl⟩
    · rw [if_neg hretry, if_neg hretry]
      exact Or.inl ⟨.error (.error e), g.hint, rfl, nofun, rfl⟩

/-- The gateway after a try, with what it then knows of the leader. -/
def onward (g : Gateway) (hint : Option NodeId) : Gateway := { g.pick.2 with hint := hint }

@[simp] theorem members_onward (g : Gateway) (hint : Option NodeId) :
    (g.onward hint).members = g.members := members_pick g

@[simp] theorem settings_onward (g : Gateway) (hint : Option NodeId) :
    (g.onward hint).settings = g.settings := settings_pick g

/-- A member is taken in turn where no leader is known. -/
theorem pick_of_unguided (h : g.hint = none) :
    g.pick = (g.members.getD (g.turn % g.members.length) 0, { g with turn := g.turn + 1 }) := by
  unfold pick
  rw [h]

theorem turn_onward_of_unguided (h : g.hint = none) (hint : Option NodeId) :
    (g.onward hint).turn = g.turn + 1 := by
  unfold onward
  rw [pick_of_unguided h]

theorem turn_onward_of_guided {leader : NodeId} (h : g.hint = some leader) (hint : Option NodeId) :
    (g.onward hint).turn = g.turn := by
  unfold onward pick
  rw [h]

/-- The request after a try, with what went wrong. -/
def retried (s : Submission) (e : ClientError) : Submission :=
  { s with tries := s.tries + 1, lastError := e }

@[simp] theorem deadline_retried (s : Submission) (e : ClientError) :
    (retried s e).deadline = s.deadline := rfl

@[simp] theorem tries_retried (s : Submission) (e : ClientError) :
    (retried s e).tries = s.tries + 1 := rfl

/-- The try that the gateway makes next. -/
def attempt (g : Gateway) (s : Submission) (now : Nat) (o : Outcome) (pause : Nat) : Attempt :=
  ⟨g.hint, g.pick.1, s.request, now, min g.settings.requestTimeout (s.deadline - now), o, pause⟩

/-! ## The loop -/

/-- What the loop comes to, by what one turn of it can do. -/
inductive Pursues : Gateway → Submission → Nat → List Outcome → Course → Prop
  /-- The tries are used up or the time is over. -/
  | ended {g : Gateway} {s : Submission} {now : Nat} (outcomes : List Outcome) (e : ClientError)
      (hgoes : ¬ g.Goes s now) : Pursues g s now outcomes ⟨[], some (.error (.error e)), g⟩
  /-- The outcome of the next try is not given. -/
  | pending {g : Gateway} {s : Submission} {now : Nat} (hgoes : g.Goes s now) :
      Pursues g s now [] ⟨[], none, g⟩
  /-- The answer decides. -/
  | settled {g : Gateway} {s : Submission} {now : Nat} {o : Outcome} (rest : List Outcome)
      (v : GatewayResult) (hint : Option NodeId) (hgoes : g.Goes s now)
      (hverdict : verdict s.request o.answer = some v)
      (hhint : ∀ r, v = .ok r → hint = some g.pick.1) :
      Pursues g s now (o :: rest) ⟨[g.attempt s now o 0], some v, g.onward hint⟩
  /-- The gateway ought to sleep, but for how long is out of range. -/
  | broken {g : Gateway} {s : Submission} {now : Nat} {o : Outcome} (rest : List Outcome)
      (hint : Option NodeId) (e : ClientError) (f : Failure ClientError) (hgoes : g.Goes s now)
      (hverdict : verdict s.request o.answer = none)
      (hpause : g.respite (retried s e) g.pick.1 o.answer (now + o.time) o.draw = .error f) :
      Pursues g s now (o :: rest) ⟨[g.attempt s now o 0], some (.error f), g.onward hint⟩
  /-- The gateway tries again. -/
  | again {g : Gateway} {s : Submission} {now : Nat} {o : Outcome} {rest : List Outcome}
      {c : Course} (hint : Option NodeId) (e : ClientError) (pause : Nat) (hgoes : g.Goes s now)
      (hverdict : verdict s.request o.answer = none)
      (hpause : g.respite (retried s e) g.pick.1 o.answer (now + o.time) o.draw = .ok pause)
      (hrest : Pursues (g.onward hint) (retried s e) (now + o.time + pause) rest c) :
      Pursues g s now (o :: rest) (c.prepend (g.attempt s now o pause))

theorem pursues (g : Gateway) (s : Submission) (now : Nat) (outcomes : List Outcome) :
    Pursues g s now outcomes (g.pursue s now outcomes) := by
  induction outcomes generalizing g s now with
  | nil =>
    unfold pursue
    rcases move_cases g s now with ⟨hgoes, e, hmove⟩ | ⟨hgoes, hmove⟩
    · rw [hmove]
      exact .ended [] e hgoes
    · rw [hmove]
      exact .pending hgoes
  | cons o rest ih =>
    unfold pursue
    rcases move_cases g s now with ⟨hgoes, e, hmove⟩ | ⟨hgoes, hmove⟩
    · rw [hmove]
      exact .ended _ e hgoes
    rw [hmove]
    dsimp only
    rcases react_cases g.pick.2 { s with tries := s.tries + 1 } g.pick.1 o.answer (now + o.time)
      o.draw with ⟨v, hint, hverdict, hhint, hreact⟩ | ⟨hverdict, hint, e, hreact⟩
    · rw [hreact]
      exact .settled rest v hint hgoes hverdict hhint
    -- a respite does not depend on whom the gateway asks next
    have hrespite : g.pick.2.respite { s with tries := s.tries + 1 } g.pick.1 o.answer (now + o.time)
        o.draw = g.respite (retried s e) g.pick.1 o.answer (now + o.time) o.draw :=
      respite_congr (settings_pick g) rfl rfl
    rw [hreact, hrespite]
    cases hpause : g.respite (retried s e) g.pick.1 o.answer (now + o.time) o.draw with
    | error f => exact .broken rest hint e f hgoes hverdict hpause
    | ok pause => exact .again hint e pause hgoes hverdict hpause (ih _ _ _)

end Raft.Gateway
