import Raft.Log.Basic

/-!
# Searching a log by term

Halving finds what a scan finds, as long as no element that passes the test follows one that fails.
Along a log whose terms never decrease this holds of both tests that the log is searched with.

* `partitionPoint_eq`: the place that halving finds is the end of the part that passes.
* `Log.firstIndexOf?_eq_find?`, `Log.lastIndexOf?_eq_find?`: reading by term is a scan from the
  front and one from the back.
-/

namespace Raft

variable {α : Type} {p : α → Bool} {l : List α}

/-! ## Halving -/

theorem takeWhile_append_cons_of_pos {a b : List α} {x : α}
    (h : (a ++ x :: b).Pairwise fun x y => p y → p x) (hx : p x) :
    (a ++ x :: b).takeWhile p = a ++ x :: b.takeWhile p := by
  obtain ⟨-, -, hbefore⟩ := List.pairwise_append.1 h
  have ha : ∀ y ∈ a, p y := fun y hy => hbefore y hy x (by simp) hx
  simp [List.takeWhile_append_of_pos ha, hx]

theorem takeWhile_append_cons_of_neg {a b : List α} {x : α} (hx : ¬ p x) :
    (a ++ x :: b).takeWhile p = a.takeWhile p := by
  rw [List.takeWhile_append]
  split
  · rename_i hall
    simp [(List.takeWhile_prefix p).eq_of_length hall, hx]
  · rfl

theorem partitionPoint_eq (h : l.Pairwise fun x y => p y → p x) :
    partitionPoint p l = (l.takeWhile p).length := by
  fun_induction partitionPoint p l with
  | case1 l hnil =>
    have hlength := congrArg List.length hnil
    simp only [List.length_drop, List.length_nil] at hlength
    have : l = [] := List.eq_nil_of_length_eq_zero (by omega)
    simp [this]
  | case2 l x rest hdrop hx ih =>
    have hsplit : l = l.take (l.length / 2) ++ x :: rest := by
      rw [← hdrop, List.take_append_drop]
    have hhalf : (l.take (l.length / 2)).length = l.length / 2 := by
      rw [List.length_take]
      omega
    rw [hsplit] at h
    have hrest := ih (List.pairwise_append.1 h).2.1.tail
    -- the middle element passes, and so does everything before it
    have htake := takeWhile_append_cons_of_pos h hx
    rw [← hsplit] at htake
    rw [htake, hrest]
    simp only [List.length_append, List.length_cons, hhalf]
    omega
  | case3 l x rest hdrop hx ih =>
    have hsplit : l = l.take (l.length / 2) ++ x :: rest := by
      rw [← hdrop, List.take_append_drop]
    -- the middle element fails: what comes after it makes no difference
    have htake : l.takeWhile p = (l.take (l.length / 2)).takeWhile p := by
      conv => lhs; rw [hsplit]
      exact takeWhile_append_cons_of_neg hx
    rw [htake, ih (h.sublist (List.take_sublist _ _))]

/-! ## Scanning -/

/-- The element after the part that passes is the first one that fails. -/
theorem getElem?_length_takeWhile (p : α → Bool) (l : List α) :
    l[(l.takeWhile p).length]? = l.find? fun x => !p x := by
  induction l with
  | nil => rfl
  | cons x l ih =>
    by_cases hx : p x
    · simp [hx, ih]
    · simp [hx]

/-- The element before the end of the part that passes is, from the back, the first one that
passes. -/
theorem getLast?_takeWhile (h : l.Pairwise fun x y => p y → p x) :
    (l.takeWhile p).getLast? = l.reverse.find? p := by
  induction l with
  | nil => rfl
  | cons x l ih =>
    obtain ⟨hbefore, hl⟩ := List.pairwise_cons.1 h
    by_cases hx : p x
    · simp only [List.takeWhile_cons, hx, if_true, List.getLast?_cons, ih hl, List.reverse_cons,
        List.find?_append, List.find?_cons]
      cases l.reverse.find? p <;> rfl
    · have hnone : l.find? p = none := by
        simp only [List.find?_eq_none]
        exact fun y hy hpy => hx (hbefore y hy hpy)
      have hback : l.reverse.find? p = none := by simpa using hnone
      simp [hx, List.find?_append, hback]

/-! ## Terms that never decrease -/

namespace Log

variable {l : Log}

theorem firstIndexOf?_eq_find? (h : l.entries.Pairwise fun a b => a.term ≤ b.term) (term : Nat) :
    l.firstIndexOf? term
      = ((l.entries.find? fun e => term ≤ e.term).filter fun e => e.term = term).map
          Entry.index := by
  have hsorted : l.entries.Pairwise fun a b =>
      decide (b.term < term) = true → decide (a.term < term) = true := by
    refine h.imp fun hab => ?_
    simp only [decide_eq_true_eq]
    omega
  have hfind : (fun e : Entry => !decide (e.term < term)) = fun e => decide (term ≤ e.term) := by
    funext e
    rw [← decide_not, decide_eq_decide, Nat.not_lt]
  unfold firstIndexOf?
  rw [partitionPoint_eq hsorted, getElem?_length_takeWhile, hfind]

theorem lastIndexOf?_eq_find? (h : l.entries.Pairwise fun a b => a.term ≤ b.term) (term : Nat) :
    l.lastIndexOf? term
      = ((l.entries.reverse.find? fun e => e.term ≤ term).filter fun e => e.term = term).map
          Entry.index := by
  have hsorted : l.entries.Pairwise fun a b =>
      decide (b.term ≤ term) = true → decide (a.term ≤ term) = true := by
    refine h.imp fun hab => ?_
    simp only [decide_eq_true_eq]
    omega
  rw [← getLast?_takeWhile hsorted, List.getLast?_eq_getElem?]
  unfold lastIndexOf?
  rw [partitionPoint_eq hsorted]
  split
  · rename_i hzero
    simp [List.eq_nil_of_length_eq_zero hzero]
  · rename_i place hplace
    have hlt : place < (l.entries.takeWhile fun e => decide (e.term ≤ term)).length := by omega
    have hsame : (l.entries.takeWhile fun e => decide (e.term ≤ term))[place]?
        = l.entries[place]? := by
      obtain ⟨rest, hrest⟩ := List.takeWhile_prefix (l := l.entries) fun e => decide (e.term ≤ term)
      conv => rhs; rw [← hrest]
      rw [List.getElem?_append_left hlt]
    rw [hplace, Nat.succ_sub_one, hsame]

end Log

end Raft
