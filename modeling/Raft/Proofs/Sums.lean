import Raft.Proofs.Apply.Applier
import Raft.Proofs.Client.Backoff
import Raft.Proofs.Log.Merge
import Raft.Settings.Validate

/-!
# Sums with the sizes of the settings

The most entries of a request and the most entries applied at a time are added to an index, and a
delay to its random part. As long as indexes stay below 2^63, none of these sums leaves the range of
64 bits if the two counts are at most 2^63 and no delay is above two thirds of the greatest word;
beyond these bounds some sum does. The rules for settings do not ask for the bounds.

* `LogStore.appendRequest_eq_overflow_iff`, `Applier.process_eq_overflow_iff`: when a request and a
  round of the apply loop fail for a sum.
* `Settings.SumsFit s`: none of the sums fails.
* `Settings.sums_fit_iff` is the result, and `Settings.valid_sizes_overflow` has settings that keep
  the rules and fail.
-/

namespace Raft

theorem sum_eq_overflow_iff {ε : Type} {a b : Nat} :
    sum (ε := ε) a b = .error .overflow ↔ wordSize ≤ a + b := by
  rw [sum_eq_error_iff, and_iff_right rfl]

/-- A failure that was an error of the protocol is not a sum. -/
theorem mapError_ne_overflow {α : Type} (x : Except Error α) :
    x.mapError Failure.error ≠ .error .overflow := by
  cases x <;> exact nofun

section Store

variable {σ : Type} [LogStore σ]

/-- The end of a request is computed before it is cut to what the log holds. -/
theorem LogStore.appendRequest_eq_overflow_iff {log : σ} {leader term next commit limit : Nat}
    (hlast : lastIndex log + 1 < wordSize) :
    appendRequest log leader term next commit limit = .error .overflow
      ↔ max 1 next ≤ lastIndex log ∧ wordSize ≤ max 1 next + max 1 limit := by
  have hbound : sum (ε := Error) (lastIndex log) 1 = .ok (lastIndex log + 1) :=
    sum_eq_ok_iff.2 ⟨hlast, rfl⟩
  unfold appendRequest
  dsimp only
  rw [hbound]
  show (if max 1 (min next (lastIndex log + 1)) ≤ lastIndex log then _ else _) = _ ↔ _
  by_cases hnext : max 1 next ≤ lastIndex log
  · have hclamp : max 1 (min next (lastIndex log + 1)) = max 1 next := by omega
    rw [hclamp, if_pos hnext, ← sum_eq_overflow_iff (ε := Error)]
    cases hsum : sum (ε := Error) (max 1 next) (max 1 limit) with
    | error f =>
      obtain rfl := eq_overflow_of_sum_eq_error hsum
      exact ⟨fun _ => ⟨hnext, rfl⟩, fun _ => rfl⟩
    | ok upper =>
      -- only the log can fail then, with an error of its own
      refine ⟨fun h => ?_, fun h => nomatch h.2⟩
      rcases of_bind_eq_error h with hsum | ⟨_, -, h⟩
      · cases hsum
      · rcases of_bind_eq_error h with hrange | ⟨_, -, hrequest⟩
        · exact absurd hrange (mapError_ne_overflow _)
        · cases hrequest
  · rw [if_neg (by omega)]
    exact ⟨nofun, fun h => absurd h.1 hnext⟩

namespace Applier

theorem applyAll_sums (entries : List Entry) (a : Applier) :
    (applyAll entries).Ensures a (fun _ _ => True) fun f _ => f ≠ .overflow := by
  induction entries generalizing a with
  | nil => exact Action.ensures_pure trivial
  | cons e rest ih =>
    refine Action.Ensures.bind (Q := fun _ _ => True) ?_ fun _ b _ => ih b
    refine (applyEntry_ensures e a).mono (fun _ _ _ => trivial) ?_
    rintro f b ⟨-, c, err, -, -, -, rfl⟩
    exact nofun

/-- A round whose sum fits fails only with an error of the protocol. -/
theorem process_sums {log : σ} {a : Applier}
    (h : a.lastApplied < a.commit → a.lastApplied + a.batch < wordSize) :
    (process log).Ensures a (fun _ _ => True) fun f _ => f ≠ .overflow := by
  unfold process
  refine Action.ensures_get_bind ?_
  split
  · rename_i hlt
    have hsum : sum (ε := Error) a.lastApplied a.batch = .ok (a.lastApplied + a.batch) :=
      sum_eq_ok_iff.2 ⟨h hlt, rfl⟩
    rw [hsum]
    have hread : (Action.ofExcept (.ok (a.lastApplied + a.batch))).run a
        = .ok (a.lastApplied + a.batch) a := rfl
    refine Action.ensures_bind_of_run hread ?_
    dsimp only
    split
    · exact Action.ensures_fail nofun
    · exact applyAll_sums _ a
  · exact Action.ensures_pure trivial

theorem process_eq_overflow_iff {log : σ} {a : Applier} :
    Action.outcome ((process log).run a) = .error .overflow
      ↔ a.lastApplied < a.commit ∧ wordSize ≤ a.lastApplied + a.batch := by
  constructor
  · intro hout
    refine Decidable.byContradiction fun hfits => ?_
    have hsums : (process log).Ensures a (fun _ _ => True) fun f _ => f ≠ .overflow :=
      process_sums (by omega)
    cases hrun : (process log).run a with
    | ok _ b =>
      rw [hrun] at hout
      cases hout
    | error f b =>
      rw [hrun] at hout
      exact hsums.error hrun (Except.error.inj hout)
  · rintro ⟨hlt, hlarge⟩
    unfold process
    show Action.outcome ((if a.lastApplied < a.commit then _ else _ : Action Applier Unit).run a) = _
    rw [if_pos hlt, sum_eq_overflow_iff.2 hlarge]
    rfl

end Applier

end Store

/-! ## Settings -/

namespace Settings

def Retry.policies (r : Retry) : List BackoffPolicy := [r.append, r.election, r.client]

/-- No sum with a size of the settings leaves the range of 64 bits, while indexes stay below 2^63:
neither the end of a request, nor that of a batch, nor a delay with its random part. -/
structure SumsFit (s : Settings) : Prop where
  requests : ∀ {σ : Type} [LogStore σ] (log : σ) (leader term next commit : Nat),
    LogStore.lastIndex log < 2 ^ 63 → 1 ≤ next →
    LogStore.appendRequest log leader term next commit s.consensus.replication.limit
      ≠ .error .overflow
  rounds : ∀ {σ : Type} [LogStore σ] (log : σ) (a : Applier),
    a.batch = s.consensus.commit.batch → a.lastApplied < 2 ^ 63 →
    Action.outcome ((Applier.process log).run a) ≠ .error .overflow
  pauses : ∀ p ∈ s.retry.policies, ∀ attempt draw,
    p.backoff (ε := Error) attempt draw ≠ .error .overflow

theorem exists_log_of_length (n : Nat) : ∃ log : Log, LogStore.lastIndex log = n :=
  ⟨{ entries := (List.range n).map fun k => .noop (k + 1) 1 }, by
    show ((List.range n).map fun k => Entry.noop (k + 1) 1).length = n
    rw [List.length_map, List.length_range]⟩

theorem SumsFit.bounded {s : Settings} (h : s.SumsFit) :
    s.consensus.replication.limit ≤ 2 ^ 63 ∧ s.consensus.commit.batch ≤ 2 ^ 63 := by
  have hsize : wordSize = 2 ^ 64 := rfl
  obtain ⟨log, hlog⟩ := exists_log_of_length (2 ^ 63 - 1)
  constructor
  · -- the follower lacks the last entry of the longest log
    refine Nat.not_lt.1 fun hlarge => ?_
    refine h.requests log 1 1 (2 ^ 63 - 1) 0 (by omega) (by decide) ?_
    exact (LogStore.appendRequest_eq_overflow_iff (by omega)).2 ⟨by omega, by omega⟩
  · refine Nat.not_lt.1 fun hlarge => ?_
    have hbelow : 2 ^ 63 - 1 < 2 ^ 63 := by decide
    let a : Applier :=
      { batch := s.consensus.commit.batch, lastApplied := 2 ^ 63 - 1, commit := 2 ^ 63 }
    refine h.rounds log a rfl hbelow (Applier.process_eq_overflow_iff.2 ⟨hbelow, ?_⟩)
    show wordSize ≤ 2 ^ 63 - 1 + s.consensus.commit.batch
    omega

theorem sumsFit_of_bounded {s : Settings} (hlimit : s.consensus.replication.limit ≤ 2 ^ 63)
    (hbatch : s.consensus.commit.batch ≤ 2 ^ 63)
    (hdelay : ∀ p ∈ s.retry.policies, 3 * p.delay 16 ≤ 2 * maxWord) : s.SumsFit where
  requests log leader term next commit hlast _ hover := by
    have hsize : wordSize = 2 ^ 64 := rfl
    have hlarge := ((LogStore.appendRequest_eq_overflow_iff (by omega)).1 hover)
    omega
  rounds log a ha hlast hover := by
    have hsize : wordSize = 2 ^ 64 := rfl
    have hlarge := (Applier.process_eq_overflow_iff.1 hover).2
    omega
  pauses p hp := p.backoffs_fit_iff.2 (hdelay p hp)

/-- **Which settings keep all sums within 64 bits.** No request, no round of the apply loop and no
pause fails for a sum, whatever the indexes below 2^63 are, just if the two counts are at most 2^63
and the longest delay of every policy is at most two thirds of the greatest word. -/
theorem sums_fit_iff (s : Settings) :
    s.SumsFit ↔ s.consensus.replication.limit ≤ 2 ^ 63 ∧ s.consensus.commit.batch ≤ 2 ^ 63
      ∧ ∀ p ∈ s.retry.policies, 3 * p.delay 16 ≤ 2 * maxWord := by
  constructor
  · intro h
    obtain ⟨hlimit, hbatch⟩ := h.bounded
    exact ⟨hlimit, hbatch, fun p hp => p.backoffs_fit_iff.1 (h.pauses p hp)⟩
  · rintro ⟨hlimit, hbatch, hdelay⟩
    exact sumsFit_of_bounded hlimit hbatch hdelay

/-- Everything at once: no bound on requests and batches, and pauses as long as can be. -/
def unbounded : Settings :=
  { consensus := { replication := { limit := maxWord }, commit := { batch := maxWord } }
    retry := { client := { baseDelay := maxWord, maxDelay := maxWord } } }

/-- **The rules for settings do not keep the sums within 64 bits.** These settings obey them, and a
request with the only entry, the second entry to apply and the first pause fail. -/
theorem valid_sizes_overflow :
    unbounded.validate = .ok ()
      ∧ LogStore.appendRequest (Log.ofEntries [.noop 1 1]) 1 1 1 0
          unbounded.consensus.replication.limit = .error .overflow
      ∧ Action.outcome ((Applier.process (Log.ofEntries [.noop 1 1, .noop 2 1])).run
          { batch := unbounded.consensus.commit.batch, lastApplied := 1, commit := 2 })
        = .error .overflow
      ∧ unbounded.retry.client.backoff (ε := Error) 0 1 = .error .overflow
      ∧ ¬ unbounded.SumsFit := by
  have hrequest : LogStore.appendRequest (Log.ofEntries [.noop 1 1]) 1 1 1 0
      unbounded.consensus.replication.limit = .error .overflow := by rfl
  exact ⟨by rfl, hrequest, by rfl, by rfl,
    fun h => h.requests _ _ _ _ _ (by decide) (Nat.le_refl 1) hrequest⟩

end Settings

end Raft
