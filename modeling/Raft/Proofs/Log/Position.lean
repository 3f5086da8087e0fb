import Mathlib.Data.List.Basic
import Raft.Log.Basic

/-!
# Positions in a list of entries

Entries are counted from 1, and the position before the first entry has term 0. This file says how
reading an entry or a term at a position goes with taking a prefix.

* `entryAt l i` and `termAt l i` read a list of entries; `Log.get?` is `entryAt` of the log's
  entries.
* `lastTerm l` is the term at the end of a list.
-/

namespace Raft

def entryAt (l : List Entry) (i : Nat) : Option Entry := if i = 0 then none else l[i - 1]?

/-- The term at a position; the position before the first entry has term 0. -/
def termAt (l : List Entry) (i : Nat) : Option Nat :=
  if i = 0 then some 0 else (entryAt l i).map Entry.term

/-- The term at the end of a list, 0 for the empty one. -/
def lastTerm (l : List Entry) : Nat := (l.getLast?.map Entry.term).getD 0

/-- Every entry stands at its index. -/
def Positioned (l : List Entry) : Prop := ∀ i e, entryAt l i = some e → e.index = i

variable {l m : List Entry} {i k : Nat} {e : Entry}

theorem Log.get?_eq_entryAt (l : Log) (i : Nat) : l.get? i = entryAt l.entries i := rfl

/-! ## Entries -/

@[simp] theorem entryAt_succ : entryAt l (i + 1) = l[i]? := by simp [entryAt]

theorem entryAt_eq_some_iff : entryAt l i = some e ↔ 0 < i ∧ l[i - 1]? = some e := by
  unfold entryAt
  split
  · simp_all
  · simp only [iff_and_self]
    omega

theorem le_length_of_entryAt (h : entryAt l i = some e) : 0 < i ∧ i ≤ l.length := by
  obtain ⟨hi, h⟩ := entryAt_eq_some_iff.1 h
  have := (List.getElem?_eq_some_iff.1 h).1
  omega

theorem exists_entryAt (hi : 0 < i) (hl : i ≤ l.length) : ∃ e, entryAt l i = some e := by
  have hlt : i - 1 < l.length := by omega
  exact ⟨l[i - 1], entryAt_eq_some_iff.2 ⟨hi, List.getElem?_eq_getElem hlt⟩⟩

theorem mem_of_entryAt (h : entryAt l i = some e) : e ∈ l :=
  List.mem_of_getElem? (entryAt_eq_some_iff.1 h).2

theorem exists_entryAt_of_mem (h : e ∈ l) : ∃ i, entryAt l i = some e := by
  obtain ⟨i, hi⟩ := List.mem_iff_getElem?.1 h
  exact ⟨i + 1, by rwa [entryAt_succ]⟩

theorem entryAt_take (h : i ≤ k) : entryAt (l.take k) i = entryAt l i := by
  unfold entryAt
  split
  · rfl
  · rw [List.getElem?_take_of_lt (by omega)]

theorem entryAt_congr (h : l.take k = m.take k) (hi : i ≤ k) : entryAt l i = entryAt m i := by
  rw [← entryAt_take hi, h, entryAt_take hi]

theorem entryAt_of_isPrefix (h : l <+: m) (he : entryAt l i = some e) : entryAt m i = some e := by
  obtain ⟨hi, he⟩ := entryAt_eq_some_iff.1 he
  obtain ⟨r, rfl⟩ := h
  refine entryAt_eq_some_iff.2 ⟨hi, ?_⟩
  rw [List.getElem?_append_left (List.getElem?_eq_some_iff.1 he).1, he]

theorem take_succ_of_entryAt (he : entryAt l (k + 1) = some e) :
    l.take (k + 1) = l.take k ++ [e] := by
  rw [entryAt_succ] at he
  obtain ⟨hk, rfl⟩ := List.getElem?_eq_some_iff.1 he
  exact List.take_succ_eq_append_getElem hk

theorem take_succ_of_length_le (h : l.length ≤ k) : l.take (k + 1) = l.take k := by
  rw [List.take_of_length_le h, List.take_of_length_le (Nat.le_succ_of_le h)]

theorem entryAt_append_left (h : i ≤ l.length) : entryAt (l ++ m) i = entryAt l i := by
  unfold entryAt
  split
  · rfl
  · rw [List.getElem?_append_left (by omega)]

theorem entryAt_append_last : entryAt (l ++ [e]) (l.length + 1) = some e := by simp

theorem entryAt_append_singleton {x : Entry} (h : entryAt (l ++ [x]) i = some e) :
    entryAt l i = some e ∨ (i = l.length + 1 ∧ e = x) := by
  obtain ⟨h0, hl⟩ := le_length_of_entryAt h
  by_cases hi : i ≤ l.length
  · left
    rwa [entryAt_append_left hi] at h
  · have : i = l.length + 1 := by simp at hl; omega
    subst this
    rw [entryAt_append_last] at h
    exact Or.inr ⟨rfl, (Option.some.inj h).symm⟩

/-! ## Terms -/

@[simp] theorem termAt_zero : termAt l 0 = some 0 := rfl

theorem termAt_of_pos (h : 0 < i) : termAt l i = (entryAt l i).map Entry.term := by
  unfold termAt
  rw [if_neg (by omega)]

theorem termAt_of_entryAt (h : entryAt l i = some e) : termAt l i = some e.term := by
  rw [termAt_of_pos (le_length_of_entryAt h).1, h]
  rfl

theorem exists_entryAt_of_termAt {t : Nat} (h : termAt l i = some t) (hi : 0 < i) :
    ∃ e, entryAt l i = some e ∧ e.term = t := by
  rw [termAt_of_pos hi] at h
  simpa using h

theorem le_length_of_termAt {t : Nat} (h : termAt l i = some t) : i ≤ l.length := by
  rcases Nat.eq_zero_or_pos i with rfl | hi
  · exact Nat.zero_le _
  · obtain ⟨e, he, -⟩ := exists_entryAt_of_termAt h hi
    exact (le_length_of_entryAt he).2

theorem exists_termAt (h : i ≤ l.length) : ∃ t, termAt l i = some t := by
  rcases Nat.eq_zero_or_pos i with rfl | hi
  · exact ⟨0, rfl⟩
  · obtain ⟨e, he⟩ := exists_entryAt hi h
    exact ⟨e.term, termAt_of_entryAt he⟩

theorem termAt_take (h : i ≤ k) : termAt (l.take k) i = termAt l i := by
  unfold termAt
  rw [entryAt_take h]

theorem termAt_of_isPrefix {t : Nat} (h : l <+: m) (ht : termAt l i = some t) :
    termAt m i = some t := by
  rcases Nat.eq_zero_or_pos i with rfl | hi
  · exact ht
  · obtain ⟨e, he, rfl⟩ := exists_entryAt_of_termAt ht hi
    exact termAt_of_entryAt (entryAt_of_isPrefix h he)

/-! ## The end of a list -/

theorem lastTerm_nil : lastTerm [] = 0 := rfl

theorem lastTerm_eq_of_entryAt (h : entryAt l l.length = some e) : lastTerm l = e.term := by
  obtain ⟨-, h⟩ := entryAt_eq_some_iff.1 h
  unfold lastTerm
  rw [List.getLast?_eq_getElem?, h]
  rfl

/-! ## Prefixes by length -/

theorem isPrefix_of_eq (h : l = m) : l <+: m := h ▸ List.prefix_rfl

theorem take_eq_of_isPrefix (h : l <+: m) (hk : k ≤ l.length) : m.take k = l.take k := by
  obtain ⟨r, rfl⟩ := h
  rw [List.take_append_of_le_length hk]

theorem take_prefix_of_le (h : i ≤ k) : l.take i <+: l.take k := by
  rw [← Nat.min_eq_left h, ← List.take_take]
  exact List.take_prefix i _

theorem take_eq_of_isPrefix_of_isPrefix {n : List Entry} (hl : l.take k <+: n) (hm : m.take k <+: n)
    (h : (l.take k).length = (m.take k).length) : l.take k = m.take k := by
  rw [List.prefix_iff_eq_take.1 hl, List.prefix_iff_eq_take.1 hm, h]

end Raft
