import Mathlib.Data.List.Sort
import Raft.Proofs.Apply.Sessions

/-!
# The window of a session

A session that is trimmed after every record remembers what one that is never trimmed has under its
greatest sequence numbers.

* `Session.top window s`: the end of a session that fits into the window.
* `Session.sorted l`: results by their sequence numbers.
* `Rising.top_put`: it is enough to trim a session at the end.
* `Rising.mem_keys_top_iff`, `Rising.recalls_top_iff`: what a trimmed session remembers and knows,
  said of the session that is not trimmed.
-/

namespace Raft.Session

variable {s s' : Session} {window k q : Nat} {r : CommitResult} {l : List (Nat × CommitResult)}

/-- The results under the greatest sequence numbers. -/
def top (window : Nat) (s : Session) : Session := s.drop (s.length - window)

def sorted (l : List (Nat × CommitResult)) : Session := l.mergeSort fun a b => decide (a.1 ≤ b.1)

/-! ## Trimming -/

theorem top_of_length_le (h : s.length ≤ window) : s.top window = s := by
  unfold top
  rw [Nat.sub_eq_zero_of_le h, List.drop_zero]

theorem top_append (h : window ≤ s'.length) : top window (s ++ s') = s'.top window := by
  unfold top
  rw [List.length_append, Nat.add_sub_assoc h, List.drop_length_add_append]

/-- Beside numbers that are lower, a result is put behind them. -/
theorem put_append_right (h : ∀ a ∈ s.keys, a < k) : put k r (s ++ s') = s ++ put k r s' := by
  induction s with
  | nil => rfl
  | cons x s ih =>
    obtain ⟨a, old⟩ := x
    have ha : a < k := h a (List.mem_cons_self ..)
    rw [List.cons_append, put, if_pos ha, ih fun b hb => h b (List.mem_cons_of_mem _ hb)]
    rfl

/-- Beside numbers of which one is not lower, a result is put among them. -/
theorem put_append_left (h : ∃ a ∈ s.keys, k ≤ a) : put k r (s ++ s') = put k r s ++ s' := by
  induction s with
  | nil =>
    obtain ⟨a, ha, -⟩ := h
    cases ha
  | cons x s ih =>
    obtain ⟨a, old⟩ := x
    rw [List.cons_append]
    unfold put
    split
    · rename_i hlt
      rw [List.cons_append, ih]
      obtain ⟨b, hb, hkb⟩ := h
      rcases List.mem_cons.1 hb with rfl | hb
      · exact absurd hlt (Nat.not_lt.2 hkb)
      · exact ⟨b, hb, hkb⟩
    · split <;> rfl

/-- A session is what was trimmed off, and then the rest, with greater numbers. -/
theorem Rising.lt_of_split (h : s.Rising) (n : Nat) :
    ∀ a ∈ keys (s.take n), ∀ b ∈ keys (s.drop n), a < b := by
  have hkeys : s.keys = keys (s.take n) ++ keys (s.drop n) := by
    unfold keys
    rw [← List.map_append, List.take_append_drop]
  unfold Rising at h
  rw [hkeys, List.pairwise_append] at h
  exact h.2.2

/-- **It is enough to trim a session at the end.** -/
theorem Rising.top_put (h : s.Rising) :
    top window (Session.put k r (s.top window)) = top window (Session.put k r s) := by
  rcases Nat.le_total s.length window with hle | hge
  · rw [top_of_length_le hle]
  · have hlength : (s.top window).length = window := by
      unfold top
      rw [List.length_drop]
      omega
    have hsplit : s.take (s.length - window) ++ s.top window = s := List.take_append_drop _ _
    have hlt : ∀ a ∈ keys (s.take (s.length - window)), ∀ b ∈ (s.top window).keys, a < b :=
      h.lt_of_split _
    generalize s.take (s.length - window) = low at hsplit hlt
    generalize s.top window = high at hsplit hlt hlength
    rw [← hsplit]
    by_cases hlow : ∀ a ∈ keys low, a < k
    · rw [put_append_right hlow, top_append]
      exact Nat.le_trans (Nat.le_of_eq hlength.symm) length_le_put
    · -- the new number is below all that stay, and leaves the session at once
      simp only [not_forall, Nat.not_lt] at hlow
      obtain ⟨a, ha, hka⟩ := hlow
      rw [put_append_left ⟨a, ha, hka⟩, top_append (Nat.le_of_eq hlength.symm),
        put_eq_cons fun b hb => Nat.lt_of_le_of_lt hka (hlt a ha b hb)]
      exact top_append (s := [(k, r)]) (Nat.le_of_eq hlength.symm)

/-- A trimmed session keeps the numbers that fewer than a window of others exceed. -/
theorem Rising.mem_keys_top_iff (h : s.Rising) :
    q ∈ (s.top window).keys ↔ q ∈ s.keys ∧ (s.keys.countP fun a => q < a) < window := by
  have hkeys : s.keys = keys (s.take (s.length - window)) ++ (s.top window).keys := by
    unfold keys top
    rw [← List.map_append, List.take_append_drop]
  have hlt := h.lt_of_split (s.length - window)
  have hlength : (s.top window).keys.length = s.length - (s.length - window) := by
    unfold keys top
    rw [List.length_map, List.length_drop]
  constructor
  · -- nothing that was trimmed off is greater, and not all that stays is
    intro hmem
    refine ⟨hkeys ▸ List.mem_append_right _ hmem, ?_⟩
    have hlow : (keys (s.take (s.length - window))).countP (fun a => q < a) = 0 := by
      rw [List.countP_eq_zero]
      intro a ha
      have := hlt a ha q hmem
      simp only [decide_eq_true_eq]
      omega
    have hhigh : (s.top window).keys.countP (fun a => q < a) < (s.top window).keys.length := by
      refine Nat.lt_of_le_of_ne List.countP_le_length fun heq => ?_
      have := List.countP_eq_length.1 heq q hmem
      simp at this
    rw [hkeys, List.countP_append, hlow]
    omega
  · rintro ⟨hmem, hcount⟩
    rw [hkeys] at hmem
    rcases List.mem_append.1 hmem with htrimmed | hkept
    · -- a full window of greater numbers stays
      have hhigh : (s.top window).keys.countP (fun a => q < a) = (s.top window).keys.length :=
        List.countP_eq_length.2 fun a ha => by simpa using hlt q htrimmed a ha
      have hpos : 0 < s.length - window := by
        have := List.length_pos_of_mem htrimmed
        unfold keys at this
        rw [List.length_map, List.length_take] at this
        omega
      rw [hkeys, List.countP_append, hhigh] at hcount
      omega
    · exact hkept

/-- **What a trimmed session knows.** A number is not new to it if it was put in, or if a full
window of greater ones was. -/
theorem Rising.recalls_top_iff (h : s.Rising) :
    (s.top window).Recalls window q ↔ q ∈ s.keys ∨ window ≤ s.keys.countP fun a => q < a := by
  have hsub : (s.top window).keys.Sublist s.keys := (List.drop_sublist _ _).map _
  constructor
  · rintro (hmem | ⟨hfull, hall⟩)
    · exact Or.inl (hsub.mem hmem)
    · right
      have hcount : (s.top window).keys.countP (fun a => q < a) = (s.top window).keys.length :=
        List.countP_eq_length.2 fun a ha => by simpa using hall a ha
      have hle := hsub.countP_le (p := fun a => decide (q < a))
      unfold keys at hcount hle
      rw [List.length_map] at hcount
      unfold keys
      omega
  · rintro (hmem | hcount)
    · exact Recalls.trim h (Or.inl hmem)
    · refine Or.inr ⟨?_, fun b hb => ?_⟩
      · have hlength := List.countP_le_length (p := fun a => decide (q < a)) (l := s.keys)
        unfold keys at hcount hlength
        rw [List.length_map] at hlength
        unfold top
        rw [List.length_drop]
        omega
      · -- fewer than a window exceed what stays
        have hfew := (h.mem_keys_top_iff.1 hb).2
        by_contra hbq
        have hle : (s.keys.countP fun a => q < a) ≤ s.keys.countP fun a => b < a := by
          refine List.countP_mono_left fun a _ ha => ?_
          simp only [decide_eq_true_eq] at ha ⊢
          omega
        omega

/-! ## Sorting -/

theorem put_perm (h : k ∉ s.keys) : (put k r s).Perm ((k, r) :: s) := by
  induction s with
  | nil => exact List.Perm.refl _
  | cons x s ih =>
    obtain ⟨a, old⟩ := x
    unfold keys at h
    rw [List.map_cons, List.mem_cons, not_or] at h
    unfold put
    split
    · exact ((ih h.2).cons _).trans (List.Perm.swap ..)
    · rw [if_neg fun hak => h.1 hak.symm]

theorem sorted_perm (l : List (Nat × CommitResult)) : (sorted l).Perm l := List.mergeSort_perm ..

theorem rising_sorted (h : (l.map Prod.fst).Nodup) : (sorted l).Rising := by
  have hsorted : (sorted l).Pairwise fun a b => decide (a.1 ≤ b.1) = true := by
    refine List.pairwise_mergeSort ?_ ?_ l
    · simp only [decide_eq_true_eq]
      exact fun a b c => Nat.le_trans
    · simp only [Bool.or_eq_true, decide_eq_true_eq]
      exact fun a b => Nat.le_total a.1 b.1
  have hle : (sorted l).Pairwise fun a b => a.1 ≤ b.1 := hsorted.imp of_decide_eq_true
  have hnodup : (sorted l).keys.Nodup := ((sorted_perm l).map Prod.fst).nodup_iff.2 h
  unfold Rising keys
  unfold keys at hnodup
  rw [List.pairwise_map]
  exact (hle.and (List.pairwise_map.1 hnodup)).imp fun hab => Nat.lt_of_le_of_ne hab.1 hab.2

/-- Sessions in order that hold the same are the same. -/
theorem Rising.eq_of_perm (h : s.Rising) (h' : s'.Rising) (hp : s.Perm s') : s = s' := by
  have hs : s.Pairwise fun a b => a.1 < b.1 := List.pairwise_map.1 h
  have hs' : s'.Pairwise fun a b => a.1 < b.1 := List.pairwise_map.1 h'
  exact hp.eq_of_pairwise (fun a b _ _ hab hba => absurd hab (Nat.lt_asymm hba)) hs hs'

theorem sorted_concat (h : (l.map Prod.fst).Nodup) (hk : k ∉ l.map Prod.fst) :
    sorted (l ++ [(k, r)]) = put k r (sorted l) := by
  have hkeys : k ∉ (sorted l).keys := fun hmem => hk (((sorted_perm l).map Prod.fst).mem_iff.1 hmem)
  refine Rising.eq_of_perm (rising_sorted ?_) (rising_sorted h).put ?_
  · rw [List.map_append, List.nodup_append]
    refine ⟨h, List.nodup_singleton _, fun a ha b hb => ?_⟩
    rw [List.mem_singleton.1 hb]
    rintro rfl
    exact hk ha
  · calc (sorted (l ++ [(k, r)])).Perm (l ++ [(k, r)]) := sorted_perm _
      List.Perm _ ((k, r) :: l) := List.perm_append_singleton _ _
      List.Perm _ ((k, r) :: sorted l) := ((sorted_perm l).cons _).symm
      List.Perm _ (put k r (sorted l)) := (put_perm hkeys).symm

end Raft.Session
