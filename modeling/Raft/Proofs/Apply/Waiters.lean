import Mathlib.Data.List.Basic
import Raft.Apply.Waiters
import Raft.Proofs.Lookup

/-!
# Who waits

Whatever is done to waiting callers, nobody waits who was not registered.

* `Waiters.Has w i x`: the waiter `x` waits on the index `i`.
-/

namespace Raft.Waiters

/-- A caller waits on an index. -/
def Has (w : Waiters) (i : Nat) (x : Waiter) : Prop := ∃ ws, (i, ws) ∈ w.byIndex ∧ x ∈ ws

variable {w : Waiters} {i j : Nat} {x y : Waiter} {ws rest : List Waiter}
  {l : List (Nat × List Waiter)}

theorem not_has_empty : ¬ Has {} i x := by
  rintro ⟨ws, hws, -⟩
  cases hws

theorem has_of_mem_on (h : x ∈ w.on i) : w.Has i x := by
  unfold on at h
  cases hlookup : w.byIndex.lookup i with
  | none =>
    rw [hlookup] at h
    cases h
  | some ws =>
    rw [hlookup] at h
    exact ⟨ws, mem_of_lookup hlookup, h⟩

theorem mem_insertAt (h : (i, ws) ∈ insertAt j y l) (hx : x ∈ ws) :
    (∃ ws', (i, ws') ∈ l ∧ x ∈ ws') ∨ i = j ∧ x = y := by
  induction l with
  | nil =>
    obtain ⟨rfl, rfl⟩ := Prod.mk.inj (List.mem_singleton.1 h)
    exact Or.inr ⟨rfl, List.mem_singleton.1 hx⟩
  | cons item rest ih =>
    obtain ⟨k, old⟩ := item
    unfold insertAt at h
    by_cases hk : k = j
    · rw [if_pos hk] at h
      rcases List.mem_cons.1 h with heq | hmem
      · obtain ⟨rfl, rfl⟩ := Prod.mk.inj heq
        rcases List.mem_append.1 hx with hold | hnew
        · exact Or.inl ⟨old, List.mem_cons_self .., hold⟩
        · exact Or.inr ⟨hk, List.mem_singleton.1 hnew⟩
      · exact Or.inl ⟨ws, List.mem_cons_of_mem _ hmem, hx⟩
    · rw [if_neg hk] at h
      rcases List.mem_cons.1 h with heq | hmem
      · exact Or.inl ⟨ws, heq ▸ List.mem_cons_self .., hx⟩
      · rcases ih hmem with ⟨ws', hws', hx'⟩ | hnew
        · exact Or.inl ⟨ws', List.mem_cons_of_mem _ hws', hx'⟩
        · exact Or.inr hnew

theorem has_register (h : (w.register j y).Has i x) : w.Has i x ∨ i = j ∧ x = y := by
  obtain ⟨ws, hws, hx⟩ := h
  exact mem_insertAt hws hx

theorem has_take (h : (w.take j).2.Has i x) : w.Has i x := by
  obtain ⟨ws, hws, hx⟩ := h
  exact ⟨ws, (List.mem_filter.1 hws).1, hx⟩

theorem has_of_mem_take (h : x ∈ (w.take j).1) : w.Has j x := has_of_mem_on h

theorem has_takeAll (h : w.takeAll.2.Has i x) : w.Has i x := by
  unfold takeAll at h
  generalize w.byIndex.map (·.1) = indexes at h
  -- what is taken so far only makes the waiters fewer
  have key : ∀ (acc : List Waiter × Waiters), (∀ i x, acc.2.Has i x → w.Has i x) →
      (indexes.foldl (fun acc index => (acc.1 ++ (acc.2.take index).1, (acc.2.take index).2))
        acc).2.Has i x → w.Has i x := by
    clear h
    induction indexes with
    | nil =>
      intro acc hacc h
      exact hacc i x h
    | cons index indexes ih =>
      intro acc hacc h
      refine ih _ ?_ h
      intro k z hz
      exact hacc k z (has_take hz)
  exact key ([], w) (fun _ _ h => h) h

theorem mem_of_swapOut {p : Waiter → Bool} (h : swapOut p ws = some (y, rest)) (hx : x ∈ rest) :
    x ∈ ws := by
  unfold swapOut at h
  split at h
  · cases h
  · rename_i k hk
    split at h
    · rename_i z last hz hlast
      obtain ⟨-, rfl⟩ := Prod.mk.inj (Option.some.inj h)
      rcases List.mem_or_eq_of_mem_set (List.dropLast_subset _ hx) with hmem | rfl
      · exact hmem
      · exact List.mem_of_getLast? hlast
    · cases h

theorem mem_setAt (h : (i, ws) ∈ setAt j rest l) : (i, ws) ∈ l ∨ i = j ∧ ws = rest := by
  unfold setAt at h
  split at h
  · exact Or.inl (List.mem_filter.1 h).1
  · obtain ⟨item, hitem, heq⟩ := List.mem_map.1 h
    by_cases hj : item.1 = j
    · rw [if_pos hj] at heq
      obtain ⟨rfl, rfl⟩ := Prod.mk.inj heq
      exact Or.inr ⟨rfl, rfl⟩
    · rw [if_neg hj] at heq
      rw [heq] at hitem
      exact Or.inl hitem

theorem has_cancel {request : String} (h : (w.cancel request).2.Has i x) : w.Has i x := by
  unfold cancel at h
  split at h
  · exact h
  · rename_i index hindex
    dsimp only at h
    split at h
    · exact h
    · rename_i y rest hswap
      obtain ⟨ws, hws, hx⟩ := h
      rcases mem_setAt hws with hmem | ⟨rfl, rfl⟩
      · exact ⟨ws, hmem, hx⟩
      · exact has_of_mem_on (mem_of_swapOut hswap hx)

end Raft.Waiters
