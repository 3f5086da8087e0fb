import Raft.Proofs.Apply.Applier
import Raft.Proofs.Apply.Effective
import Raft.Proofs.Apply.Waiters

/-!
# A loop that applied the first entries of its log

An apply loop whose state machine and session table are what the applied part of the log makes of
them.

* `Applier.Steady window failing R l a`: the loop `a` beside the log `l`, with a state machine that
  fails at some indexes.
* `Steady.conclude`: one entry.
* `Steady.refused`: a state machine that fails, fails where it is made to.
-/

namespace Raft

namespace Applier

/-- How the loop ends when the state machine fails at an index. -/
def refusal (i : Nat) : Except (Failure Error) Unit :=
  .error (.error (.fatal (s!"apply index {i} failed: "
    ++ (Error.storage (.machine (.other "injected apply"))).message)))

variable {window : Nat} {failing : List Nat} {R : Nat → Waiter → Prop} {l l' : List Entry}
  {a b : Applier} {e : Entry} {r : Option CommitResult} {f : Failure Error}

/-- A loop that has applied the first entries of `l` once, at no index at which the state machine
fails, and has answered only callers that `R` says are registered. -/
structure Steady (window : Nat) (failing : List Nat) (R : Nat → Waiter → Prop) (l : List Entry)
    (a : Applier) : Prop where
  follows : a.machine.Follows window l a.lastApplied a.sessions
  last : a.machine.last ≤ a.lastApplied
  refuses : ∀ i, a.machine.refuses i = failing.contains i
  le_length : a.lastApplied ≤ l.length
  passed : ∀ i ≤ a.lastApplied, TakesEffect window l i → i ∉ failing
  waiting : ∀ i x, a.waiters.Has i x → R i x
  answered : ∀ y ∈ a.answers, ∃ i x, R i x ∧ x.caller = y.1 ∧ i ≤ a.lastApplied

theorem steady_fresh (batch window : Nat) (failing : List Nat) (R : Nat → Waiter → Prop)
    (l : List Entry) :
    ({ batch, machine := { failing }, sessions := Sessions.empty window } : Applier).Steady window
      failing R l := by
  refine ⟨⟨rfl, rfl, rfl⟩, Nat.le_refl _, fun _ => Bool.false_or _, Nat.zero_le _, ?_, ?_, ?_⟩
  · rintro i hi ⟨e, he, -⟩
    have := (le_length_of_entryAt he).1
    have hi : i ≤ 0 := hi
    omega
  · exact fun i w hw => absurd hw Waiters.not_has_empty
  · exact fun y hy => by cases hy

theorem Steady.widen {R' : Nat → Waiter → Prop} (h : a.Steady window failing R l)
    (hR : ∀ i x, R i x → R' i x) : a.Steady window failing R' l :=
  { h with
    waiting := fun i x hx => hR i x (h.waiting i x hx)
    answered := by
      intro y hy
      obtain ⟨i, x, hx, hy'⟩ := h.answered y hy
      exact ⟨i, x, hR i x hx, hy'⟩ }

theorem Steady.signal {i : Nat} (h : a.Steady window failing R l) :
    (a.signal i).Steady window failing R l := { h with }

theorem Steady.log (h : a.Steady window failing R l)
    (hl : l'.take a.lastApplied = l.take a.lastApplied) (hle : a.lastApplied ≤ l'.length) :
    a.Steady window failing R l' :=
  { h with
    follows := h.follows.log hl
    le_length := hle
    passed := by
      intro i hi heffect
      refine h.passed i hi (heffect.congr ?_)
      rw [← Nat.min_eq_left hi, ← List.take_take, ← hl, List.take_take] }

/-- What an entry does to the machine and the table, before the loop counts it as applied. -/
theorem Steady.executed (h : a.Steady window failing R l)
    (he : entryAt l (a.lastApplied + 1) = some e) (hindex : e.index = a.lastApplied + 1)
    (hx : a.Executed e r b) :
    b.machine.Follows window l (a.lastApplied + 1) b.sessions
      ∧ b.machine.last ≤ a.lastApplied + 1 ∧ (∀ i, b.machine.refuses i = failing.contains i)
      ∧ (TakesEffect window l (a.lastApplied + 1) → a.lastApplied + 1 ∉ failing) := by
  have heffect := h.follows.takesEffect_iff he
  cases hx with
  | passed r hold =>
    refine ⟨h.follows.skip he hold, Nat.le_succ_of_le h.last, h.refuses, fun hnew => ?_⟩
    obtain ⟨c, hpayload, hcheck⟩ := heffect.1 hnew
    exact absurd hcheck (hold c hpayload)
  | ran c machine output hpayload hnew happly =>
    have hfollows := (h.follows.apply he hpayload hnew happly).2.2
    have hrefuses : a.machine.refuses e.index = false := by
      unfold Machine.apply at happly
      split at happly
      · cases happly
      · rename_i hrefuses
        rwa [Bool.not_eq_true] at hrefuses
    obtain ⟨rfl, -⟩ := Machine.eq_of_apply_eq_ok happly
    refine ⟨hfollows, Nat.le_of_eq hindex, h.refuses, fun _ hmem => ?_⟩
    rw [h.refuses, hindex] at hrefuses
    simp [hmem] at hrefuses

/-- **One entry.** -/
theorem Steady.conclude (h : a.Steady window failing R l)
    (he : entryAt l (a.lastApplied + 1) = some e) (hindex : e.index = a.lastApplied + 1)
    (hx : a.Executed e r b) : (b.conclude e r).Steady window failing R l := by
  obtain ⟨hfollows, hlast, hrefuses, hpassed⟩ := h.executed he hindex hx
  constructor
  · show b.machine.Follows window l e.index b.sessions
    rwa [hindex]
  · show b.machine.last ≤ e.index
    rwa [hindex]
  · exact hrefuses
  · show e.index ≤ l.length
    rw [hindex]
    exact (le_length_of_entryAt he).2
  · -- either the entry itself, or one before it, which was passed already
    intro i hi
    have hi : i ≤ e.index := hi
    rcases Nat.lt_or_ge a.lastApplied i with hlt' | hge
    · obtain rfl : i = a.lastApplied + 1 := by omega
      exact hpassed
    · exact h.passed i hge
  · intro i x hwaits
    rw [hx.waiters_conclude] at hwaits
    exact h.waiting i x (Waiters.has_take hwaits)
  · intro y hy
    rw [hx.answers_conclude] at hy
    rcases List.mem_append.1 hy with hold | hnew
    · obtain ⟨i, x, hR, hcaller, hi⟩ := h.answered y hold
      refine ⟨i, x, hR, hcaller, ?_⟩
      show i ≤ e.index
      omega
    · obtain ⟨x, htaken, rfl⟩ := List.mem_map.1 hnew
      exact ⟨e.index, x, h.waiting _ x (Waiters.has_of_mem_take htaken), rfl, Nat.le_refl _⟩

/-- A state machine that fails at the next entry fails because it is made to. -/
theorem Steady.refused (h : a.Steady window failing R l) (hl : Positioned l)
    (he : entryAt l (a.lastApplied + 1) = some e) (hrefused : a.Refused e f) :
    TakesEffect window l (a.lastApplied + 1) ∧ a.lastApplied + 1 ∈ failing
      ∧ .error f = refusal (a.lastApplied + 1) := by
  obtain ⟨c, err, hpayload, hnew, happly, rfl⟩ := hrefused
  have hindex := hl _ _ he
  have hlast := h.last
  refine ⟨(h.follows.takesEffect_iff he).2 ⟨c, hpayload, hnew⟩, ?_⟩
  unfold Machine.apply at happly
  split at happly
  · rename_i hrefuses
    rw [h.refuses, hindex] at hrefuses
    rw [← Except.error.inj happly, hindex]
    exact ⟨by simpa using hrefuses, rfl⟩
  · rw [if_neg (by omega)] at happly
    cases happly

end Applier

end Raft
