import Mathlib.Data.List.Perm.Subperm
import Mathlib.Data.List.Nodup
import Raft.Membership
import Raft.Log.Basic

/-!
# Quorums

More than half of the members. Two quorums of the same members share a member, which is all that
elections and commits need of them.

* `Quorum members Q` says that `Q` lists more than half of `members`, each once.
* `majorityIndex?_eq`: the index in the middle of what the nodes hold is what a majority holds.
* `majority_le_countP_of_majorityIndex` reads a quorum off the index that a leader commits.
-/

namespace Raft

/-- More than half of the members, each listed once. -/
structure Quorum (members Q : List NodeId) : Prop where
  nodup : Q.Nodup
  subset : Q ⊆ members
  majority_le : majority members.length ≤ Q.length

/-- Two quorums share a member. -/
theorem Quorum.exists_mem_mem {members Q Q' : List NodeId} (h : Quorum members Q)
    (h' : Quorum members Q') : ∃ v, v ∈ Q ∧ v ∈ Q' := by
  by_contra hne
  have hdisjoint : Q.Disjoint Q' := fun v hv hv' => hne ⟨v, hv, hv'⟩
  have hnodup : (Q ++ Q').Nodup := List.Nodup.append h.nodup h'.nodup hdisjoint
  have hsub : Q ++ Q' ⊆ members := List.append_subset.2 ⟨h.subset, h'.subset⟩
  have hlen := (List.subperm_of_subset hnodup hsub).length_le
  have h1 := h.majority_le
  have h2 := h'.majority_le
  rw [List.length_append] at hlen
  unfold majority at h1 h2
  omega

/-! ## The index that a majority holds -/

/-- In a list that falls, more than `k` items reach a bound exactly if the item at the place `k`
does. -/
theorem lt_countP_iff_of_getElem? {l : List Nat} {k m : Nat}
    (hl : l.Pairwise fun a b => b ≤ a) (h : l[k]? = some m) (i : Nat) :
    (k < l.countP fun a => i ≤ a) ↔ i ≤ m := by
  induction l generalizing k with
  | nil => cases h
  | cons a rest ih =>
    obtain ⟨hle, hrest⟩ := List.pairwise_cons.1 hl
    by_cases hi : i ≤ a
    · rw [List.countP_cons_of_pos (by simpa using hi)]
      cases k with
      | zero =>
        obtain rfl := Option.some.inj h
        simpa using hi
      | succ k =>
        rw [Nat.add_lt_add_iff_right]
        exact ih hrest h
    · -- nothing comes after the first item that could reach the bound
      have hall : ∀ b ∈ a :: rest, b ≤ a := by
        intro b hb
        rcases List.mem_cons.1 hb with rfl | hb
        · exact Nat.le_refl _
        · exact hle b hb
      have hnone : ((a :: rest).countP fun b => i ≤ b) = 0 := by
        rw [List.countP_eq_zero]
        intro b hb
        have := hall b hb
        simp only [decide_eq_true_eq]
        omega
      have hm := hall m (List.mem_of_getElem? h)
      rw [hnone]
      omega

/-- In the middle of what the nodes hold stands the greatest index that a majority holds. It is
committed if it is beyond the commit index and of the current term. -/
theorem majorityIndex?_eq {σ : Type} [LogStore σ] (s : σ) (term commit : Nat) (peers : List Nat) :
    ∃ m, (∀ i, majority (peers.length + 1)
        ≤ ((peers ++ [LogStore.lastIndex s]).countP fun a => i ≤ a) ↔ i ≤ m)
      ∧ LogStore.majorityIndex? s term commit peers
        = if commit < m ∧ LogStore.term? s m = some term then some m else none := by
  -- the order in which they are ranked changes no count
  have hperm := List.mergeSort_perm (peers ++ [LogStore.lastIndex s]) fun a b => decide (b ≤ a)
  have hfalls : ((peers ++ [LogStore.lastIndex s]).mergeSort fun a b => decide (b ≤ a)).Pairwise
      fun a b => b ≤ a := by
    have hsorted := @List.pairwise_mergeSort Nat (fun a b => decide (b ≤ a))
      (fun a b c hab hbc => by simp only [decide_eq_true_eq] at *; omega)
      (fun a b => by simp only [Bool.or_eq_true, decide_eq_true_eq]; omega)
      (peers ++ [LogStore.lastIndex s])
    exact hsorted.imp of_decide_eq_true
  unfold LogStore.majorityIndex?
  generalize ((peers ++ [LogStore.lastIndex s]).mergeSort fun a b => decide (b ≤ a)) = ranked
    at hperm hfalls ⊢
  have hlength : ranked.length = peers.length + 1 := by
    rw [hperm.length_eq, List.length_append, List.length_singleton]
  obtain ⟨m, hm⟩ : ∃ m, ranked[ranked.length / 2]? = some m :=
    ⟨_, List.getElem?_eq_getElem (by omega)⟩
  refine ⟨m, fun i => ?_, ?_⟩
  · rw [← hperm.countP_eq, ← lt_countP_iff_of_getElem? hfalls hm i, hlength]
    rfl
  · dsimp only
    rw [hm]

/-- What a leader commits is of its term, and held by a majority of the peers and itself. -/
theorem majority_le_countP_of_majorityIndex {l : Log} {term commit i : Nat} {peers : List Nat}
    (h : LogStore.majorityIndex? l term commit peers = some i) :
    commit < i ∧ l.term? i = some term
      ∧ majority (peers.length + 1) ≤ (peers ++ [l.lastIndex]).countP fun a => i ≤ a := by
  obtain ⟨m, hm, heq⟩ := majorityIndex?_eq l term commit peers
  rw [heq] at h
  split at h
  · rename_i hc
    obtain rfl := Option.some.inj h
    exact ⟨hc.1, hc.2, (hm m).2 (Nat.le_refl m)⟩
  · cases h

end Raft
