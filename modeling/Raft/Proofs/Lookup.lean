import Mathlib.Data.List.Nodup

/-!
# Pairs that are looked up

Sessions, waiting callers and the numbers of a leader are kept as lists of pairs.

* `mem_of_lookup`: what is found is in the list.
* `lookup_eq_some_iff_mem`: where no key is there twice, what is in the list is found.
-/

namespace Raft

variable {α β : Type} [BEq α] [LawfulBEq α] {l : List (α × β)} {k : α} {v : β}

theorem mem_of_lookup (h : l.lookup k = some v) : (k, v) ∈ l := by
  obtain ⟨before, after, rfl, -⟩ := List.lookup_eq_some_iff.1 h
  exact List.mem_append_right _ (List.mem_cons_self ..)

theorem lookup_eq_some_iff_mem (h : (l.map (·.1)).Nodup) : l.lookup k = some v ↔ (k, v) ∈ l := by
  refine ⟨mem_of_lookup, fun hmem => ?_⟩
  cases hlookup : l.lookup k with
  | none =>
    have hne := List.lookup_eq_none_iff.1 hlookup (k, v) hmem
    simp at hne
  | some v' => rw [← (Prod.mk.inj (List.inj_on_of_nodup_map h hmem (mem_of_lookup hlookup) rfl)).2]

end Raft
