import Mathlib.Data.List.Nodup
import Raft.Node.Basic

/-!
# Numbers for peers

A leader keeps a number for each peer in a list of pairs: the index to send next, and how far the
peer is known to hold the log.

* `PeerMap.lookup_put`: a number that is put replaces the peer's old one.
* `PeerMap.lookup_foldl_put`, `PeerMap.foldl_put_zero`: the numbers of a new leader.
-/

namespace Raft

namespace PeerMap

variable {m : PeerMap} {p : NodeId} {v : Nat}

theorem lookup_put (m : PeerMap) (p q : NodeId) (v : Nat) :
    (m.put p v).lookup q = if q = p then some v else m.lookup q := by
  induction m with
  | nil =>
    by_cases hq : q = p
    · simp [put, hq]
    · simp [put, List.lookup_cons, beq_false_of_ne hq, hq]
  | cons x m ih =>
    obtain ⟨k, old⟩ := x
    unfold put
    by_cases hk : k = p
    · subst hk
      by_cases hq : q = k
      · simp [hq]
      · simp [List.lookup_cons, beq_false_of_ne hq, hq]
    · rw [if_neg hk]
      by_cases hq : q = k
      · simp [hq, hk]
      · simp [List.lookup_cons, beq_false_of_ne hq, ih]

theorem lookup_foldl_put (l : List NodeId) (m : PeerMap) (q : NodeId) (v : Nat) :
    (l.foldl (fun m x => m.put x v) m).lookup q = if q ∈ l then some v else m.lookup q := by
  induction l generalizing m with
  | nil => rfl
  | cons x l ih =>
    rw [List.foldl_cons, ih, lookup_put]
    by_cases hl : q ∈ l
    · rw [if_pos hl, if_pos (List.mem_cons_of_mem _ hl)]
    · rw [if_neg hl]
      exact if_congr (by simp [hl]) rfl rfl

theorem keys_put (h : p ∈ m.map Prod.fst) : (m.put p v).map Prod.fst = m.map Prod.fst := by
  induction m with
  | nil => simp at h
  | cons x m ih =>
    obtain ⟨k, old⟩ := x
    unfold put
    split
    · rfl
    · rename_i hk
      rw [List.map_cons, List.map_cons, ih]
      rw [List.map_cons, List.mem_cons] at h
      exact h.resolve_left fun hp => hk hp.symm

theorem put_of_notMem (h : p ∉ m.map Prod.fst) : m.put p v = m ++ [(p, v)] := by
  induction m with
  | nil => rfl
  | cons x m ih =>
    obtain ⟨k, old⟩ := x
    rw [List.map_cons, List.mem_cons, not_or] at h
    unfold put
    rw [if_neg fun hk => h.1 hk.symm, ih h.2, List.cons_append]

theorem mem_put {x : NodeId × Nat} (h : x ∈ m.put p v) : x ∈ m ∨ x = (p, v) := by
  induction m with
  | nil => exact Or.inr (List.mem_singleton.1 h)
  | cons y m ih =>
    obtain ⟨k, old⟩ := y
    unfold put at h
    split at h
    · rename_i hk
      rcases List.mem_cons.1 h with rfl | h
      · exact Or.inr (by rw [hk])
      · exact Or.inl (List.mem_cons_of_mem _ h)
    · rcases List.mem_cons.1 h with rfl | h
      · exact Or.inl (List.mem_cons_self ..)
      · exact (ih h).imp (List.mem_cons_of_mem _) id

theorem foldl_put_zero {l : List NodeId} (hl : l.Nodup) (hm : ∀ x ∈ l, x ∉ m.map Prod.fst) :
    l.foldl (fun m x => m.put x 0) m = m ++ l.map fun x => (x, 0) := by
  induction l generalizing m with
  | nil => simp
  | cons x l ih =>
    obtain ⟨hx, hl⟩ := List.nodup_cons.1 hl
    rw [List.foldl_cons, put_of_notMem (hm x (List.mem_cons_self ..)), ih hl, List.append_assoc]
    · rfl
    · intro y hy
      rw [List.map_append, List.mem_append, not_or]
      refine ⟨hm y (List.mem_cons_of_mem _ hy), ?_⟩
      rw [List.map_singleton, List.mem_singleton]
      rintro rfl
      exact hx hy

end PeerMap

end Raft
