import Mathlib.Algebra.Ring.Nat
import Mathlib.Data.List.Rotate
import Raft.Proofs.Client.Attempts
import Raft.Proofs.Client.Backoff

/-!
# Requests are seen through

A gateway makes a bounded number of tries, all of the same request and within its time, gives back
the first result that an answer decides on, and goes round the members while it knows of no leader.

* `Gateway.Pursues.within` and its like: what the loop does, for each part of it.
* `Gateway.IsSeenThrough`: all of it. `Gateway.requests_seen_through` is the result.
-/

namespace Raft.Gateway

variable {g : Gateway} {s : Submission} {now : Nat} {outcomes : List Outcome} {c : Course}
  {a : Attempt}

@[simp] theorem attempts_prepend (c : Course) (a : Attempt) :
    (c.prepend a).attempts = a :: c.attempts := rfl

@[simp] theorem result_prepend (c : Course) (a : Attempt) : (c.prepend a).result = c.result := rfl

@[simp] theorem gateway_prepend (c : Course) (a : Attempt) : (c.prepend a).gateway = c.gateway := rfl

/-! ## Bounds -/

/-- Every try is of the request, begins before the deadline and is granted no more than is left. -/
theorem Pursues.within (h : Pursues g s now outcomes c) :
    ∀ a ∈ c.attempts, a.request = s.request ∧ a.start < s.deadline
      ∧ a.wait = min g.settings.requestTimeout (s.deadline - a.start) := by
  induction h with
  | ended => exact nofun
  | pending => exact nofun
  | settled rest v hint hgoes =>
    intro a ha
    rw [List.mem_singleton.1 ha]
    exact ⟨rfl, hgoes.2, rfl⟩
  | broken rest hint e f hgoes =>
    intro a ha
    rw [List.mem_singleton.1 ha]
    exact ⟨rfl, hgoes.2, rfl⟩
  | again hint e pause hgoes hverdict hpause hrest ih =>
    intro a ha
    rcases List.mem_cons.1 ha with rfl | ha
    · exact ⟨rfl, hgoes.2, rfl⟩
    · have hlater := ih a ha
      rwa [settings_onward] at hlater

theorem Pursues.length_le (h : Pursues g s now outcomes c) (hbound : 0 < g.settings.retry.maxRetries)
    (htries : s.tries ≤ g.settings.retry.maxRetries) :
    s.tries + c.attempts.length ≤ g.settings.retry.maxRetries := by
  induction h with
  | ended => exact htries
  | pending => exact htries
  | settled rest v hint hgoes =>
    have := hgoes.1 hbound
    simp only [List.length_singleton]
    omega
  | broken rest hint e f hgoes =>
    have := hgoes.1 hbound
    simp only [List.length_singleton]
    omega
  | again hint e pause hgoes hverdict hpause hrest ih =>
    have hleft := hgoes.1 hbound
    rw [settings_onward, tries_retried] at ih
    have hlater := ih hbound hleft
    simp only [attempts_prepend, List.length_cons]
    omega

/-- Where every backoff can be computed, no request is broken off. -/
theorem Pursues.result_ne_overflow (h : Pursues g s now outcomes c)
    (hfit : ∀ k draw, g.settings.retry.backoff (ε := ClientError) k draw ≠ .error .overflow) :
    c.result ≠ some (.error .overflow) := by
  induction h with
  | ended => exact nofun
  | pending => exact nofun
  | settled rest v hint hgoes hv =>
    intro hbroken
    exact verdict_ne_overflow _ _ (hv.trans hbroken)
  | broken rest hint e f hgoes hv hpause =>
    obtain ⟨rfl, hbackoff⟩ := overflow_of_respite hpause
    exact absurd hbackoff (hfit _ _)
  | again hint e pause hgoes hv hpause hrest ih =>
    rw [settings_onward] at ih
    exact ih hfit

/-- The pause after an answer that does not decide: none after a redirect, and else the backoff, as
far as time is left. -/
theorem Pursues.backsOff (h : Pursues g s now outcomes c)
    (hwhole : c.result ≠ some (.error .overflow)) {k : Nat} (ha : c.attempts[k]? = some a)
    (hverdict : verdict s.request a.outcome.answer = none) :
    if (redirect? a.target a.outcome.answer).isSome then a.pause = 0
    else ∃ delay, g.settings.retry.backoff (ε := ClientError) (s.tries + k) a.outcome.draw = .ok delay
      ∧ a.pause = min delay (s.deadline - a.stop) := by
  induction h generalizing k with
  | ended => cases ha
  | pending => cases ha
  | settled rest v hint hgoes hv =>
    cases k with
    | zero =>
      obtain rfl := Option.some.inj ha
      rw [attempt, hv] at hverdict
      cases hverdict
    | succ k => cases ha
  | broken rest hint e f hgoes hv hpause =>
    obtain ⟨rfl, -⟩ := overflow_of_respite hpause
    exact absurd rfl hwhole
  | again hint e pause hgoes hv hpause hrest ih =>
    cases k with
    | zero =>
      obtain rfl := Option.some.inj ha
      have hbacksOff := backsOff_of_respite hpause
      rw [tries_retried, Nat.add_sub_cancel] at hbacksOff
      exact hbacksOff
    | succ k =>
      have hlater := ih hwhole ha hverdict
      rwa [settings_onward, tries_retried, Nat.add_assoc, Nat.add_comm 1 k] at hlater

/-- A try that is answered in time is over before the deadline, together with its pause. -/
theorem Pursues.stop_le (h : Pursues g s now outcomes c) :
    ∀ a ∈ c.attempts, a.Timely → a.stop + a.pause ≤ s.deadline := by
  have hanswered : ∀ {g : Gateway} {s : Submission} {now : Nat} {o : Outcome} {pause : Nat},
      g.Goes s now → (g.attempt s now o pause).Timely → now + o.time ≤ s.deadline := by
    intro g s now o pause hgoes htimely
    have hearly := hgoes.2
    have hwait : o.time ≤ min g.settings.requestTimeout (s.deadline - now) := htimely
    omega
  induction h with
  | ended => exact nofun
  | pending => exact nofun
  | settled rest v hint hgoes =>
    intro a ha htimely
    rw [List.mem_singleton.1 ha] at htimely ⊢
    exact hanswered hgoes htimely
  | broken rest hint e f hgoes =>
    intro a ha htimely
    rw [List.mem_singleton.1 ha] at htimely ⊢
    exact hanswered hgoes htimely
  | @again g s now o rest c hint e pause hgoes hverdict hpause hrest ih =>
    intro a ha htimely
    rcases List.mem_cons.1 ha with rfl | ha
    · have hstop := hanswered hgoes htimely
      have hle := respite_le hpause
      rw [deadline_retried] at hle
      show now + o.time + pause ≤ s.deadline
      omega
    · exact ih a ha htimely

/-! ## Results -/

/-- An answer that decides is the last one, and its result is given back. -/
theorem Pursues.settles (h : Pursues g s now outcomes c) {before after : List Attempt}
    (ha : c.attempts = before ++ a :: after) {v : GatewayResult}
    (hverdict : verdict s.request a.outcome.answer = some v) :
    after = [] ∧ c.result = some v ∧ ∀ r, v = .ok r → c.gateway.hint = some a.target := by
  induction h generalizing before with
  | ended => simp at ha
  | pending => simp at ha
  | settled rest v' hint hgoes hv hhint =>
    cases before with
    | nil =>
      obtain ⟨rfl, rfl⟩ := List.cons.inj ha
      obtain rfl := Option.some.inj (hv.symm.trans hverdict)
      exact ⟨rfl, rfl, hhint⟩
    | cons first before => simp at ha
  | broken rest hint e f hgoes hv =>
    cases before with
    | nil =>
      obtain ⟨rfl, -⟩ := List.cons.inj ha
      cases hv.symm.trans hverdict
    | cons first before => simp at ha
  | again hint e pause hgoes hv hpause hrest ih =>
    cases before with
    | nil =>
      obtain ⟨rfl, -⟩ := List.cons.inj ha
      cases hv.symm.trans hverdict
    | cons first before => exact ih (List.cons.inj ha).2 hverdict

/-- A command is only told to be committed if an answer said so. -/
theorem Pursues.exists_of_ok (h : Pursues g s now outcomes c) {r : CommitResult}
    (hr : c.result = some (.ok r)) :
    ∃ a ∈ c.attempts, verdict s.request a.outcome.answer = some (.ok r) := by
  induction h with
  | ended => cases hr
  | pending => cases hr
  | settled rest v hint hgoes hv =>
    obtain rfl := Option.some.inj hr
    exact ⟨_, List.mem_singleton_self _, hv⟩
  | broken => cases hr
  | again hint e pause hgoes hv hpause hrest ih =>
    obtain ⟨a, ha, hverdict⟩ := ih hr
    exact ⟨a, List.mem_cons_of_mem _ ha, hverdict⟩

theorem Pursues.of_open (h : Pursues g s now outcomes c) (hopen : c.result = none) :
    (0 < g.settings.retry.maxRetries →
        s.tries + outcomes.length < g.settings.retry.maxRetries)
      ∧ now + (outcomes.map Outcome.time).sum < s.deadline := by
  induction h with
  | ended => cases hopen
  | pending hgoes => exact ⟨hgoes.1, hgoes.2⟩
  | settled => cases hopen
  | broken => cases hopen
  | again hint e pause hgoes hv hpause hrest ih =>
    obtain ⟨htries, htime⟩ := ih hopen
    rw [settings_onward, tries_retried] at htries
    rw [deadline_retried] at htime
    simp only [List.length_cons, List.map_cons, List.sum_cons]
    exact ⟨fun hbound => by have := htries hbound; omega, by omega⟩

/-! ## Turns -/

/-- The members in turn from a position on. -/
def inTurn (members : List NodeId) (turn count : Nat) : List NodeId :=
  (List.range count).map fun k => members.getD ((turn + k) % members.length) 0

@[simp] theorem length_inTurn (members : List NodeId) (turn count : Nat) :
    (inTurn members turn count).length = count := by
  simp [inTurn]

theorem inTurn_add (members : List NodeId) (turn m n : Nat) :
    inTurn members turn (m + n) = inTurn members turn m ++ inTurn members (turn + m) n := by
  unfold inTurn
  rw [List.range_add, List.map_append, List.map_map]
  simp only [Function.comp_def, Nat.add_assoc]

/-- As many turns as there are members go round once. -/
theorem inTurn_perm (members : List NodeId) (turn : Nat) :
    (inTurn members turn members.length).Perm members := by
  have hrotate : inTurn members turn members.length = members.rotate turn := by
    refine List.ext_getElem (by simp) fun k hk hk' => ?_
    rw [length_inTurn] at hk
    have hplace : (turn + k) % members.length < members.length :=
      Nat.mod_lt _ (Nat.zero_lt_of_lt hk)
    simp [inTurn, List.getElem_rotate, List.getD_eq_getElem?_getD, List.getElem?_eq_getElem hplace,
      Nat.add_comm]
  rw [hrotate]
  exact List.rotate_perm members turn

/-- The nodes that were asked without knowing of a leader. -/
def unguided (attempts : List Attempt) : List NodeId :=
  (attempts.filter Attempt.isUnguided).map Attempt.target

theorem unguided_append (l l' : List Attempt) : unguided (l ++ l') = unguided l ++ unguided l' := by
  simp [unguided]

/-- One more try takes one more turn if it is made without knowing of a leader. -/
theorem unguided_cons {o : Outcome} {pause : Nat} {rest : List Attempt} (hint : Option NodeId)
    (h : unguided rest = inTurn g.members (g.onward hint).turn (unguided rest).length) :
    unguided (g.attempt s now o pause :: rest)
      = inTurn g.members g.turn (unguided (g.attempt s now o pause :: rest)).length := by
  cases hhint : g.hint with
  | none =>
    have hcons : unguided (g.attempt s now o pause :: rest) = g.pick.1 :: unguided rest := by
      unfold unguided
      rw [List.filter_cons_of_pos (by simp [Attempt.isUnguided, attempt, hhint])]
      rfl
    rw [turn_onward_of_unguided hhint] at h
    rw [hcons, List.length_cons, Nat.add_comm, inTurn_add, ← h, pick_of_unguided hhint]
    rfl
  | some leader =>
    have hcons : unguided (g.attempt s now o pause :: rest) = unguided rest := by
      unfold unguided
      rw [List.filter_cons_of_neg (by simp [Attempt.isUnguided, attempt, hhint])]
    rw [turn_onward_of_guided hhint] at h
    rw [hcons]
    exact h

/-- Without knowing of a leader, the members are asked in turn. -/
theorem Pursues.unguided_eq (h : Pursues g s now outcomes c) :
    unguided c.attempts = inTurn g.members g.turn (unguided c.attempts).length := by
  induction h with
  | ended => rfl
  | pending => rfl
  | settled rest v hint => exact unguided_cons hint rfl
  | broken rest hint => exact unguided_cons hint rfl
  | again hint e pause hgoes hv hpause hrest ih =>
    rw [members_onward] at ih
    exact unguided_cons hint ih

/-- Of the tries without knowing of a leader, as many in a row as there are members go round once. -/
theorem Pursues.unguided_perm (h : Pursues g s now outcomes c) {before window after : List Attempt}
    (ha : c.attempts = before ++ window ++ after)
    (hlength : (unguided window).length = g.members.length) :
    (unguided window).Perm g.members := by
  have hturns := h.unguided_eq
  rw [ha, unguided_append, unguided_append, List.length_append, List.length_append, inTurn_add,
    inTurn_add] at hturns
  obtain ⟨hfront, -⟩ := List.append_inj hturns (by simp)
  obtain ⟨-, hwindow⟩ := List.append_inj hfront (by simp)
  rw [hwindow, hlength]
  exact inTurn_perm _ _

/-! ## The result -/

/-- The first turn of a request, and all that follow. -/
def course (g : Gateway) (r : ClientRequest) (now : Nat) (outcomes : List Outcome) : Course :=
  g.pursue (g.submission r now) now outcomes

/-- What a gateway makes of a request, with the deadline `limit`. -/
structure IsSeenThrough (g : Gateway) (r : ClientRequest) (limit : Nat) (c : Course) : Prop where
  /-- Every try carries the same client, sequence number and command. -/
  same : ∀ a ∈ c.attempts, a.request = r
  /-- There are no more tries than allowed. -/
  bounded : 0 < g.settings.retry.maxRetries → c.attempts.length ≤ g.settings.retry.maxRetries
  /-- No try begins at the deadline or later, and none is granted more than is left. -/
  granted : ∀ a ∈ c.attempts, a.start < limit
    ∧ a.wait = min g.settings.requestTimeout (limit - a.start)
  /-- A pause does not go past the deadline. -/
  paused : ∀ a ∈ c.attempts, a.stop + a.pause ≤ limit
  /-- A redirect is followed at once; else the gateway backs off, unless the time is over before. -/
  backsOff : ∀ k a, c.attempts[k]? = some a → verdict r a.outcome.answer = none →
    if (redirect? a.target a.outcome.answer).isSome then a.pause = 0
    else ∃ delay, g.settings.retry.backoff (ε := ClientError) k a.outcome.draw = .ok delay
      ∧ a.pause = min delay (limit - a.stop)
  /-- No sum leaves its range on the way. -/
  whole : c.result ≠ some (.error .overflow)
  /-- A result is given back just if some node answered with it. -/
  committed : ∀ result, c.result = some (.ok result)
    ↔ ∃ a ∈ c.attempts, a.outcome.answer = .ok (.committed result)
  /-- That try is the last, and its node is taken for the leader. -/
  leads : ∀ before a after result, c.attempts = before ++ a :: after →
    a.outcome.answer = .ok (.committed result) → after = [] ∧ c.gateway.hint = some a.target
  /-- A stale sequence number ends the request. -/
  stale : ∀ before a after latest, c.attempts = before ++ a :: after →
    a.outcome.answer = .ok (.stale latest) →
    after = [] ∧ c.result = some (.error (.error (.stale r.client r.sequence)))
  /-- So does an error that another try cannot mend. -/
  hopeless : ∀ before a after e, c.attempts = before ++ a :: after →
    a.outcome.answer = .error e → e.isRetryable = false →
    after = [] ∧ c.result = some (.error (.error e))
  /-- Among as many tries in a row without a known leader as there are members, each member is asked
  once. -/
  roundRobin : ∀ before window after, c.attempts = before ++ window ++ after →
    (unguided window).length = g.members.length → ∀ m ∈ g.members, (unguided window).count m = 1

section Course

variable {r : ClientRequest}

theorem course_pursues (g : Gateway) (r : ClientRequest) (now : Nat) (outcomes : List Outcome) :
    Pursues g (g.submission r now) now outcomes (g.course r now outcomes) := pursues ..

theorem isSeenThrough (hmembers : g.members.Nodup) (hdelay : g.settings.retry.maxDelay < 2 ^ 63)
    (htimely : ∀ a ∈ (g.course r now outcomes).attempts, a.Timely) :
    IsSeenThrough g r (now + g.settings.overallTimeout) (g.course r now outcomes) := by
  have h := course_pursues g r now outcomes
  have hfirst : (g.submission r now).tries = 0 := rfl
  have hwhole : (g.course r now outcomes).result ≠ some (.error .overflow) :=
    h.result_ne_overflow (BackoffPolicy.backoffs_fit hdelay)
  -- what decides a try decides the request, and no try follows
  have hdecides : ∀ {before a after v}, (g.course r now outcomes).attempts = before ++ a :: after →
      verdict r a.outcome.answer = some v → after = [] ∧ (g.course r now outcomes).result = some v
        ∧ ∀ result, v = .ok result → (g.course r now outcomes).gateway.hint = some a.target :=
    fun ha hverdict => h.settles ha hverdict
  exact
    { same := fun a ha => (h.within a ha).1
      bounded := fun hbound => by
        have hle := h.length_le hbound (Nat.zero_le _)
        rwa [hfirst, Nat.zero_add] at hle
      granted := fun a ha => (h.within a ha).2
      paused := fun a ha => h.stop_le a ha (htimely a ha)
      backsOff := fun k a ha hverdict => by
        have hpause := h.backsOff hwhole ha hverdict
        rwa [hfirst, Nat.zero_add] at hpause
      whole := hwhole
      committed := fun result => by
        constructor
        · intro hresult
          obtain ⟨a, ha, hverdict⟩ := h.exists_of_ok hresult
          exact ⟨a, ha, verdict_eq_ok_iff.1 hverdict⟩
        · rintro ⟨a, ha, hanswer⟩
          obtain ⟨before, after, hsplit⟩ := List.append_of_mem ha
          exact (hdecides hsplit (verdict_eq_ok_iff.2 hanswer)).2.1
      leads := fun before a after result ha hanswer => by
        obtain ⟨hlast, -, hhint⟩ := hdecides ha (verdict_eq_ok_iff.2 hanswer)
        exact ⟨hlast, hhint result rfl⟩
      stale := fun before a after latest ha hanswer => by
        obtain ⟨hlast, hresult, -⟩ := hdecides ha (by rw [hanswer]; rfl)
        exact ⟨hlast, hresult⟩
      hopeless := fun before a after e ha hanswer hfinal => by
        have hverdict : verdict r a.outcome.answer = some (.error (.error e)) := by
          simp [hanswer, verdict, hfinal]
        obtain ⟨hlast, hresult, -⟩ := hdecides ha hverdict
        exact ⟨hlast, hresult⟩
      roundRobin := fun before window after ha hlength m hm => by
        rw [(h.unguided_perm ha hlength).count_eq]
        exact List.count_eq_one_of_mem hmembers hm }

/-- Once the tries are used up, or the time is, there is a result. -/
theorem isSome_result (hused : 0 < g.settings.retry.maxRetries
      ∧ g.settings.retry.maxRetries ≤ outcomes.length
    ∨ g.settings.overallTimeout ≤ (outcomes.map Outcome.time).sum) :
    (g.course r now outcomes).result.isSome := by
  refine Option.isSome_iff_ne_none.2 fun hopen => ?_
  obtain ⟨htries, htime⟩ := (course_pursues g r now outcomes).of_open hopen
  have hleft : 0 < g.settings.retry.maxRetries →
      0 + outcomes.length < g.settings.retry.maxRetries := htries
  have hearly : now + (outcomes.map Outcome.time).sum < now + g.settings.overallTimeout := htime
  rcases hused with ⟨hbound, hmany⟩ | hlong
  · have := hleft hbound
    omega
  · omega

/-- **A gateway sees a request through.** Whatever leader it starts with, wherever it stands in the
round of the members, and whatever becomes of the tries, if only every answer is there within the
time that was granted: it makes a bounded number of tries of one request before its deadline, gives
back the first result that an answer decides on, and asks each member in turn while it knows of no
leader. It comes to an end once the tries or the time are used up. -/
theorem requests_seen_through (hmembers : g.members.Nodup)
    (hdelay : g.settings.retry.maxDelay < 2 ^ 63)
    (htimely : ∀ a ∈ (g.course r now outcomes).attempts, a.Timely) :
    IsSeenThrough g r (now + g.settings.overallTimeout) (g.course r now outcomes)
      ∧ (0 < g.settings.retry.maxRetries ∧ g.settings.retry.maxRetries ≤ outcomes.length
          ∨ g.settings.overallTimeout ≤ (outcomes.map Outcome.time).sum →
        (g.course r now outcomes).result.isSome) :=
  ⟨isSeenThrough hmembers hdelay htimely, isSome_result⟩

end Course

/-- A gateway without a leader that begins with the last of three members. -/
def lost : Gateway where
  client := "c"
  members := [1, 2, 3]
  settings :=
    { requestTimeout := 20, overallTimeout := 100
      retry := { maxRetries := 6, baseDelay := 2, maxDelay := 8 } }
  turn := 2

/-- One node is down, one knows no leader, one redirects to a node that does not answer in time, and
the last one leads by now. -/
def detour : List Outcome :=
  [⟨.error (.unavailable 3), 0, 5⟩, ⟨.ok (.notLeader none), 4, 7⟩, ⟨.ok (.notLeader (some 1)), 1, 0⟩,
    ⟨.error .timeout, 20, 9⟩, ⟨.ok (.committed ⟨2, 7, [1]⟩), 3, 0⟩]

theorem requests_seen_through_of_detour :
    lost.members.Nodup ∧ lost.settings.retry.maxDelay < 2 ^ 63
      ∧ (∀ a ∈ (lost.course ⟨"c", 1, [9]⟩ 50 detour).attempts, a.Timely)
      ∧ (lost.course ⟨"c", 1, [9]⟩ 50 detour).attempts.map
          (fun a => (a.hint, a.target, a.start, a.wait, a.pause))
        = [(none, 3, 50, 20, 3), (none, 1, 53, 20, 5), (none, 2, 62, 20, 0), (some 1, 1, 63, 20, 12),
          (none, 3, 95, 20, 0)]
      ∧ (lost.course ⟨"c", 1, [9]⟩ 50 detour).result = some (.ok ⟨2, 7, [1]⟩)
      ∧ IsSeenThrough lost ⟨"c", 1, [9]⟩ 150 (lost.course ⟨"c", 1, [9]⟩ 50 detour) := by
  have hmembers : lost.members.Nodup := by decide
  have hdelay : lost.settings.retry.maxDelay < 2 ^ 63 := by decide
  have htimely : ∀ a ∈ (lost.course ⟨"c", 1, [9]⟩ 50 detour).attempts, a.Timely := by
    decide +kernel
  exact ⟨hmembers, hdelay, htimely, by decide +kernel, by decide +kernel,
    (requests_seen_through hmembers hdelay htimely).1⟩

end Raft.Gateway
