import Mathlib.Data.List.Nodup
import Raft.Proofs.Lookup
import Raft.Proofs.Network.Sound
import Raft.Proofs.Node.PeerMap

/-!
# The match indexes of a leader

A leader keeps one number for each peer. It starts them at zero and raises them by what the peers
confirm, so that the numbers that reach an index name peers that hold the log up to it.

* `Tallied.put` and `tallied_zero`: how the numbers change.
* `Tallied.quorum`: a majority of the numbers is a quorum of the members.
-/

namespace Raft

/-! ## Tallies -/

namespace Node.Outline

open Network (Past)

variable {past : Past} {p q : NodeId} {t v i : Nat} {m : PeerMap}

/-- A new leader knows nothing of its peers. -/
theorem tallied_zero (past : Past) (p : NodeId) (t : Nat) (hnodup : past.members.Nodup) :
    Tallied past p t ((past.members.filter (· ≠ p)).foldl (fun m x => m.put x 0) []) := by
  rw [PeerMap.foldl_put_zero (hnodup.filter _) (by simp), List.nil_append]
  refine ⟨?_, fun x hx => ?_⟩
  · rw [List.map_map]
    exact List.map_id _
  · obtain ⟨y, -, rfl⟩ := List.mem_map.1 hx
    exact Nat.zero_le _

theorem Tallied.put (h : Tallied past p t m) (hq : q ∈ past.members) (hne : q ≠ p)
    (hv : v ≤ past.record.held q t) : Tallied past p t (m.put q v) where
  peers := by
    rw [PeerMap.keys_put, h.peers]
    rw [h.peers, List.mem_filter]
    exact ⟨hq, by simpa using hne⟩
  held x hx := by
    rcases PeerMap.mem_put hx with hx | rfl
    · exact h.held x hx
    · exact hv

theorem Tallied.lookup_le (h : Tallied past p t m) :
    (m.lookup q).getD 0 ≤ past.record.held q t := by
  cases hlookup : m.lookup q with
  | none => exact Nat.zero_le _
  | some v => exact h.held (q, v) (mem_of_lookup hlookup)

/-- A majority of the match indexes and the leader's own last index is a quorum. -/
theorem Tallied.quorum (h : Tallied past p t m) (hmem : p ∈ past.members)
    (hnodup : past.members.Nodup) {own : Nat} (hown : own ≤ past.record.held p t)
    (hmajority : majority (m.length + 1) ≤ (m.map Prod.snd ++ [own]).countP fun a => i ≤ a) :
    ∃ Q, Quorum past.members Q ∧ ∀ v ∈ Q, i ≤ past.record.held v t := by
  -- each member is counted once, the leader for its own log
  have hperm : (m.map Prod.fst ++ [p]).Perm past.members := by
    have herase : past.members.filter (· ≠ p) = past.members.erase p := by
      rw [hnodup.erase_eq_filter]
      exact List.filter_congr fun x _ => by simp [bne, beq_eq_decide]
    rw [h.peers, herase]
    exact (List.perm_append_comm).trans (List.perm_cons_erase hmem).symm
  have hlen : m.length + 1 = past.members.length := by
    rw [← hperm.length_eq, List.length_append, List.length_map, List.length_singleton]
  have hcount : (m.map Prod.snd ++ [own]).countP (fun a => i ≤ a)
      ≤ (m.map Prod.fst ++ [p]).countP fun v => i ≤ past.record.held v t := by
    rw [List.countP_append, List.countP_append, List.countP_map, List.countP_map]
    refine Nat.add_le_add (List.countP_mono_left fun x hx hi => ?_) ?_
    · have := h.held x hx
      simp only [Function.comp, decide_eq_true_eq] at hi ⊢
      omega
    · rw [List.countP_singleton, List.countP_singleton]
      simp only [decide_eq_true_eq]
      split
      · exact Nat.le_of_eq (if_pos (by omega)).symm
      · exact Nat.zero_le _
  rw [hlen] at hmajority
  rw [hperm.countP_eq] at hcount
  refine ⟨past.members.filter fun v => i ≤ past.record.held v t, ⟨hnodup.filter _,
    List.filter_subset_self _, ?_⟩, fun v hv => ?_⟩
  · rw [← List.countP_eq_length_filter]
    exact Nat.le_trans hmajority hcount
  simpa using (List.mem_filter.1 hv).2

end Node.Outline

end Raft
