import Mathlib.Data.List.Pairwise
import Raft.Proofs.Solo.WriteAhead

/-!
# One vote in a term

What a node ever stored and answered with is ordered in time, across all its crashes. So its term
does not fall, and it votes for one candidate in a term, itself included.

* `Solo.held n`: the hard states the node spoke under, and the one it stores.
* `Solo.VotesFor n t x`: the node has voted for `x` in the term `t`.
* `one_vote_per_term` is the result.
-/

namespace Raft

open HardState (Precedes)

/-- Two votes of one term are for the same candidate. -/
theorem HardState.Precedes.vote_unique {h h' : HardState} {t : Nat} {x y : NodeId}
    (a : h.Precedes h') (hs : h.Sound) (hs' : h'.Sound) (hx : h.vote = some ⟨x, t⟩)
    (hy : h'.vote = some ⟨y, t⟩) : x = y := by
  have ht : t = h.term := hs _ hx
  have ht' : t = h'.term := hs' _ hy
  have hkept := a.vote_eq (by omega) _ hx ht
  rw [hy] at hkept
  injection hkept with hkept
  injection hkept with hkept
  exact hkept.symm

namespace Solo

variable {n n' : Solo} {t : Nat} {x y : NodeId} {h h' : HardState}

/-- The hard states under which the node made something visible, and the one it stores. -/
def held (n : Solo) : List HardState := n.history.map Departure.hard ++ [n.stored]

/-- The node has voted for a candidate in a term: it stores that vote, or it granted the request of
that candidate. -/
inductive VotesFor (n : Solo) (t : Nat) (x : NodeId) : Prop
  | stored (hvote : n.stored.vote = some ⟨x, t⟩)
  | granted (d : Departure) (c : Caller) (a : VoteResponse) (q : VoteRequest)
      (hmem : d ∈ n.history) (heffect : d.effect = .answer c (.vote (.ok a)))
      (hgranted : a.granted = true) (hterm : a.term = t)
      (hcaller : n.inbound[c]? = some (.voteRequest q c)) (hcandidate : q.candidate = x)

theorem stored_mem_held (n : Solo) : n.stored ∈ n.held :=
  List.mem_append_right _ (List.mem_singleton_self _)

/-- What was held is ordered in time. -/
theorem Continues.comparable (c : n.Continues n') (hordered : n.held.Pairwise Precedes)
    (hh : h ∈ n.held) (hh' : h' ∈ n'.held) : h.Precedes h' ∨ h'.Precedes h := by
  obtain ⟨new, hnew, hbetween, -⟩ := c.history
  have hlast : h.Precedes n.stored := by
    rcases List.mem_append.1 hh with hmem | hmem
    · exact (List.pairwise_append.1 hordered).2.2 h hmem _ (List.mem_singleton_self _)
    · rw [List.mem_singleton.1 hmem]
      exact Precedes.refl _
  unfold held at hh'
  rw [hnew, List.map_append, List.append_assoc] at hh'
  rcases List.mem_append.1 hh' with hold | hlater
  · -- both were held before
    have hmem' : h' ∈ n.held := List.mem_append_left _ hold
    apply (hordered.imp fun hab => Or.inl hab).forall_of_forall_of_flip _ _ hh hmem'
    · intro a _
      exact Or.inl (Precedes.refl a)
    · exact hordered.imp fun hab => Or.inr hab
  · left
    rcases List.mem_append.1 hlater with hmem | hmem
    · obtain ⟨d, hd, rfl⟩ := List.mem_map.1 hmem
      exact hlast.trans (hbetween d hd).1
    · rw [List.mem_singleton.1 hmem]
      exact hlast.trans c.stored

theorem continues_run (r : Node.Remains) (acts : List Act) :
    ({ site := .down r } : Solo).Continues (run r acts) :=
  (keeps_steps (sound_down r) acts).2

theorem held_run (r : Node.Remains) (acts : List Act) : (run r acts).held.Pairwise Precedes := by
  obtain ⟨new, hnew, hbetween, hrising⟩ := (continues_run r acts).history
  unfold held
  rw [hnew, List.nil_append, List.pairwise_append]
  refine ⟨List.pairwise_map.2 hrising, List.pairwise_singleton _ _, ?_⟩
  intro a ha b hb
  obtain ⟨d, hd, rfl⟩ := List.mem_map.1 ha
  rw [List.mem_singleton.1 hb]
  exact (hbetween d hd).2

/-- A node that started from a sound hard state held sound ones only. -/
theorem sound_of_held {r : Node.Remains} (hr : (r.stored.getD {}).Sound) (acts : List Act)
    (hh : h ∈ (run r acts).held) : h.Sound := by
  have hcontinues := continues_run r acts
  obtain ⟨new, hnew, hbetween, -⟩ := hcontinues.history
  rcases List.mem_append.1 hh with hmem | hmem
  · obtain ⟨d, hd, rfl⟩ := List.mem_map.1 hmem
    rw [hnew, List.nil_append] at hd
    exact (hbetween d hd).1.sound hr
  · rw [List.mem_singleton.1 hmem]
    exact hcontinues.stored.sound hr

theorem VotesFor.exists_held (hs : n.Sound) (hv : n.VotesFor t x) :
    ∃ h ∈ n.held, h.vote = some ⟨x, t⟩ := by
  cases hv with
  | stored hvote => exact ⟨_, stored_mem_held n, hvote⟩
  | granted d c a q hmem heffect hgranted hterm hcaller hcandidate =>
    have hahead := hs.history d hmem
    obtain ⟨q', hq', hterm', hstored⟩ := hahead.vote c a heffect hgranted
    rw [hcaller] at hq'
    injection hq' with hq'
    injection hq' with hq'
    have hhard : d.hard = ⟨q'.term, some ⟨q'.candidate, q'.term⟩⟩ := by
      rw [← hahead.stored, hstored]
      rfl
    refine ⟨d.hard, List.mem_append_left _ (List.mem_map_of_mem hmem), ?_⟩
    rw [hhard, ← hq', hcandidate, ← hterm, hterm', hq']

/-- **One vote per term, across crashes.** A node that starts from a sound hard state, or from none:
its stored term never falls, its stored vote carries the stored term and stays as long as the term
does, and all its votes of a term, whether stored or granted, are for one candidate. -/
theorem one_vote_per_term (r : Node.Remains) (hr : (r.stored.getD {}).Sound)
    (acts later : List Act) :
    (run r acts).stored.term ≤ (run r (acts ++ later)).stored.term
      ∧ (∀ v, (run r acts).stored.vote = some v → v.term = (run r acts).stored.term)
      ∧ ((run r (acts ++ later)).stored.term = (run r acts).stored.term →
        ∀ v, (run r acts).stored.vote = some v → (run r (acts ++ later)).stored.vote = some v)
      ∧ ∀ t x y, (run r acts).VotesFor t x → (run r (acts ++ later)).VotesFor t y → x = y := by
  have hcontinues : (run r acts).Continues (run r (acts ++ later)) := by
    rw [run_append]
    exact (keeps_steps (sound_run r acts) later).2
  have hsound := sound_of_held hr acts (stored_mem_held _)
  refine ⟨hcontinues.stored.term_le, hsound, ?_, ?_⟩
  · intro hterm v hv
    exact hcontinues.stored.vote_eq hterm v hv (hsound v hv)
  · intro t x y hx hy
    obtain ⟨h, hh, hvote⟩ := hx.exists_held (sound_run r acts)
    obtain ⟨h', hh', hvote'⟩ := hy.exists_held (sound_run r (acts ++ later))
    have hs := sound_of_held hr acts hh
    have hs' := sound_of_held hr (acts ++ later) hh'
    rcases hcontinues.comparable (held_run r acts) hh hh' with hle | hle
    · exact hle.vote_unique hs hs' hvote hvote'
    · exact (hle.vote_unique hs' hs hvote' hvote).symm

/-- A node that has voted starts again and is asked by another candidate. -/
def askedAgain : List Act := [.crash, startOne, .event (.voteRequest ⟨2, 3, 0, 0⟩ 0)]

/-- The vote of the first life binds the second one. -/
theorem one_vote_per_term_of_askedAgain :
    (({} : Node.Remains).stored.getD {}).Sound
      ∧ (run {} voteThenFail).VotesFor 2 2
      ∧ ∀ y, (run {} (voteThenFail ++ askedAgain)).VotesFor 2 y → 2 = y := by
  have hsound : (({} : Node.Remains).stored.getD {}).Sound := by
    intro v hv
    cases hv
  have hvotes : (run {} voteThenFail).VotesFor 2 2 := by
    apply VotesFor.stored
    decide +kernel
  exact ⟨hsound, hvotes, fun y hy =>
    (one_vote_per_term {} hsound voteThenFail askedAgain).2.2.2 2 2 y hvotes hy⟩

end Solo

end Raft
