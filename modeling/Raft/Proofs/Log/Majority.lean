import Raft.Proofs.Log.Lawful
import Raft.Proofs.Quorum

/-!
# Which index a leader commits

A leader may commit by counting what a majority of the nodes has reached, if the entry there is of
its own term. It looks only at the index in the middle of what the nodes hold. In a sorted log whose
terms are not newer than the leader's this is enough: where the entry in the middle is of an older
term, so are all before it.

* `committable l term commit peers`: the indexes that may be committed.
* `isGreatest_committable`: if there is one at all, the greatest is the index in the middle.
* `commits_greatest` is the result.
-/

namespace Raft

open LawfulStore (Holds)

/-- The indexes that may be committed by counting: beyond the commit index, with an entry of the
term, and reached by a majority of the nodes, which are the peers and the leader with its last
index. -/
def committable (l : List Entry) (term commit : Nat) (peers : List Nat) : Set Nat :=
  {i | commit < i ∧ i ∈ indexesOf l term
    ∧ majority (peers.length + 1) ≤ (peers ++ [l.length]).countP fun a => i ≤ a}

section Middle

variable {l : List Entry} {term commit m i : Nat} {peers : List Nat}
  (hm : ∀ i, majority (peers.length + 1) ≤ ((peers ++ [l.length]).countP fun a => i ≤ a) ↔ i ≤ m)
include hm

theorem mem_committable_middle :
    m ∈ committable l term commit peers ↔ commit < m ∧ m ∈ indexesOf l term := by
  constructor
  · rintro ⟨hcommit, hmem, -⟩
    exact ⟨hcommit, hmem⟩
  · rintro ⟨hcommit, hmem⟩
    exact ⟨hcommit, hmem, (hm m).2 (Nat.le_refl m)⟩

/-- What a majority holds the leader holds too. -/
theorem middle_le_length (hpeers : ∀ a ∈ peers, a ≤ l.length) : m ≤ l.length := by
  have hmajority := (hm m).2 (Nat.le_refl m)
  have hpos : 0 < (peers ++ [l.length]).countP fun a => m ≤ a := by
    unfold majority at hmajority
    omega
  obtain ⟨a, ha, hma⟩ := List.countP_pos_iff.1 hpos
  have hma : m ≤ a := by simpa using hma
  rcases List.mem_append.1 ha with hpeer | hown
  · exact Nat.le_trans hma (hpeers a hpeer)
  · rwa [List.mem_singleton.1 hown] at hma

/-- If anything may be committed, the index in the middle may be, and nothing beyond it. -/
theorem isGreatest_committable (hsorted : l.Pairwise fun a b => a.term ≤ b.term)
    (hterm : ∀ e ∈ l, e.term ≤ term) (hpeers : ∀ a ∈ peers, a ≤ l.length)
    (hi : i ∈ committable l term commit peers) :
    IsGreatest (committable l term commit peers) m := by
  have hle : ∀ j ∈ committable l term commit peers, j ≤ m := fun j hj => (hm j).1 hj.2.2
  refine ⟨(mem_committable_middle hm).2 ?_, hle⟩
  have him := hle i hi
  obtain ⟨hcommit, ⟨e, he, hi⟩, -⟩ := hi
  have hpos := (le_length_of_entryAt he).1
  obtain ⟨x, hx⟩ := exists_entryAt (Nat.lt_of_lt_of_le hpos him) (middle_le_length hm hpeers)
  -- the entry in the middle is between one of the term and the end of the log
  have hlow := term_le_of_sorted hsorted him he hx
  have hhigh := hterm x (mem_of_entryAt hx)
  exact ⟨Nat.lt_of_lt_of_le hcommit him, x, hx, by omega⟩

end Middle

section Rule

variable {σ : Type} [LogStore σ] {s : σ} {l : List Entry} {term commit : Nat} {peers : List Nat}

/-- In which order the peers are looked at does not matter. -/
theorem majorityIndex?_congr {peers' : List Nat} (h : peers'.Perm peers) :
    LogStore.majorityIndex? s term commit peers'
      = LogStore.majorityIndex? s term commit peers := by
  obtain ⟨m, hm, heq⟩ := majorityIndex?_eq s term commit peers
  obtain ⟨m', hm', heq'⟩ := majorityIndex?_eq s term commit peers'
  have hsame : ∀ i, i ≤ m' ↔ i ≤ m := by
    intro i
    rw [← hm, ← hm', h.length_eq, (h.append_right _).countP_eq]
  have hmiddle : m' = m :=
    Nat.le_antisymm ((hsame m').1 (Nat.le_refl m')) ((hsame m).2 (Nat.le_refl m))
  rw [heq, heq', hmiddle]

/-- Either the greatest index that may be committed is found, or there is none. -/
theorem majorityIndex?_cases [LawfulStore σ] (hs : Holds s l)
    (hsorted : l.Pairwise fun a b => a.term ≤ b.term) (hterm : ∀ e ∈ l, e.term ≤ term)
    (hpeers : ∀ a ∈ peers, a ≤ l.length) :
    (∃ m, LogStore.majorityIndex? s term commit peers = some m
        ∧ IsGreatest (committable l term commit peers) m)
      ∨ LogStore.majorityIndex? s term commit peers = none
        ∧ committable l term commit peers = ∅ := by
  obtain ⟨m, hm, heq⟩ := majorityIndex?_eq s term commit peers
  rw [LawfulStore.lastIndex_eq hs] at hm
  -- the rule asks of the middle just what committing needs
  have hread : commit < m ∧ LogStore.term? s m = some term
      ↔ m ∈ committable l term commit peers := by
    have hle := middle_le_length hm hpeers
    have hroom := LawfulStore.room hs
    have hword := maxWord_lt_wordSize
    rw [mem_committable_middle hm, LawfulStore.term?_eq hs (by omega), Option.map_eq_some_iff]
    rfl
  have hgreatest : ∀ i ∈ committable l term commit peers,
      IsGreatest (committable l term commit peers) m :=
    fun i hi => isGreatest_committable hm hsorted hterm hpeers hi
  by_cases hmem : m ∈ committable l term commit peers
  · left
    rw [heq, if_pos (hread.2 hmem)]
    exact ⟨m, rfl, hgreatest m hmem⟩
  · right
    rw [heq, if_neg fun h => hmem (hread.1 h)]
    exact ⟨rfl, Set.eq_empty_of_forall_notMem fun i hi => hmem (hgreatest i hi).1⟩

end Rule

/-- **The greatest index that may be committed is committed.** In a sorted log without terms newer
than the leader's, whatever the peers have reached of it, the leader's computation gives the
greatest index that may be committed by counting, and none exactly if there is no such index. In
which order the peers are looked at does not matter. -/
theorem commits_greatest {σ : Type} [LogStore σ] [LawfulStore σ] (s : σ) (l : List Entry)
    (term commit : Nat) (peers : List Nat) (hs : Holds s l)
    (hsorted : l.Pairwise fun a b => a.term ≤ b.term) (hterm : ∀ e ∈ l, e.term ≤ term)
    (hpeers : ∀ a ∈ peers, a ≤ l.length) :
    (∀ i, LogStore.majorityIndex? s term commit peers = some i
        ↔ IsGreatest (committable l term commit peers) i)
      ∧ (LogStore.majorityIndex? s term commit peers = none
        ↔ committable l term commit peers = ∅)
      ∧ ∀ peers', peers'.Perm peers → LogStore.majorityIndex? s term commit peers'
        = LogStore.majorityIndex? s term commit peers := by
  refine ⟨fun i => ?_, ?_, fun _ hperm => majorityIndex?_congr hperm⟩
  · rcases majorityIndex?_cases hs hsorted hterm hpeers with ⟨m, hsome, hm⟩ | ⟨hnone, hempty⟩
    · rw [hsome, Option.some_inj]
      exact ⟨fun h => h ▸ hm, fun h => hm.unique h⟩
    · rw [hnone, hempty]
      exact ⟨nofun, fun h => absurd h.1 (Set.notMem_empty i)⟩
  · rcases majorityIndex?_cases hs hsorted hterm hpeers with ⟨m, hsome, hm⟩ | ⟨hnone, hempty⟩
    · rw [hsome]
      exact ⟨nofun, fun h => absurd (h ▸ hm.1) (Set.notMem_empty m)⟩
    · exact ⟨fun _ => hempty, fun _ => hnone⟩

/-- The log of a leader of term 3, which begins with what an older leader wrote. -/
def takenOver : List Entry := [.noop 1 1, .noop 2 1, .noop 3 3, .noop 4 3]

/-- Two of four peers are enough for an entry of the term; an older one that all have is not
committed by counting. -/
theorem commits_greatest_of_takenOver :
    Holds ({ entries := takenOver } : Log) takenOver
      ∧ IsGreatest (committable takenOver 3 0 [4, 2, 3, 1]) 3
      ∧ committable takenOver 3 0 [2, 2, 2, 2] = ∅ := by
  have hs : Holds ({ entries := takenOver } : Log) takenOver := ⟨rfl, by decide, by decide⟩
  have hfirst := (commits_greatest _ _ 3 0 [4, 2, 3, 1] hs (by decide) (by decide) (by decide)).1
  have hsecond :=
    (commits_greatest _ _ 3 0 [2, 2, 2, 2] hs (by decide) (by decide) (by decide)).2.1
  refine ⟨hs, (hfirst 3).1 ?_, hsecond.1 ?_⟩ <;>
    simp [LogStore.majorityIndex?, LogStore.lastIndex, Log.lastIndex, LogStore.term?, Log.term?,
      Log.get?, takenOver, Entry.noop, List.mergeSort, List.MergeSort.Internal.splitInTwo]

end Raft
