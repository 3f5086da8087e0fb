import Mathlib.Order.Bounds.Basic
import Mathlib.Data.Nat.Find
import Raft.Proofs.Log.Mirror
import Raft.Proofs.Log.Position

/-!
# Reading a sorted log by term

In a log whose entries stand at their indexes and whose terms never decrease, the entries of a term
stand together. Both stores then find the first and the last of them, and nothing if there is none.

* `indexesOf l t`: the places of a term.
* `FindsTerms s l`: a store that holds the entries `l` finds the ends of every term.
* `Log.findsTerms`, `KeyedLog.findsTerms`: both stores do, if the entries are sorted.
-/

namespace Raft

/-- The indexes that hold an entry of a term. -/
def indexesOf (l : List Entry) (t : Nat) : Set Nat := {i | ∃ e, entryAt l i = some e ∧ e.term = t}

/-- A store finds the least and the greatest index of every term, and none exactly if there is no
entry of the term. -/
structure FindsTerms {σ : Type} [LogStore σ] (s : σ) (l : List Entry) : Prop where
  first : ∀ t i, LogStore.firstIndexOf? s t = some i ↔ IsLeast (indexesOf l t) i
  first_none : ∀ t, LogStore.firstIndexOf? s t = none ↔ ∀ e ∈ l, e.term ≠ t
  last : ∀ t i, LogStore.lastIndexOf? s t = some i ↔ IsGreatest (indexesOf l t) i
  last_none : ∀ t, LogStore.lastIndexOf? s t = none ↔ ∀ e ∈ l, e.term ≠ t

variable {l : List Entry} {t i : Nat} {e : Entry}

/-! ## The places of a term -/

theorem indexesOf_eq_empty_iff : indexesOf l t = ∅ ↔ ∀ e ∈ l, e.term ≠ t := by
  rw [Set.eq_empty_iff_forall_notMem]
  constructor
  · intro h e he ht
    obtain ⟨i, hi⟩ := exists_entryAt_of_mem he
    exact h i ⟨e, hi, ht⟩
  · rintro h i ⟨e, he, ht⟩
    exact h e (mem_of_entryAt he) ht

theorem exists_isLeast (h : (indexesOf l t).Nonempty) : ∃ i, IsLeast (indexesOf l t) i := by
  classical
  exact ⟨Nat.find h, Nat.find_spec h, fun _ hj => Nat.find_min' h hj⟩

theorem exists_isGreatest (h : (indexesOf l t).Nonempty) : ∃ i, IsGreatest (indexesOf l t) i := by
  classical
  have hle : ∀ i ∈ indexesOf l t, i ≤ l.length := fun i ⟨_, he, _⟩ => (le_length_of_entryAt he).2
  obtain ⟨i, hi⟩ := h
  refine ⟨_, Nat.findGreatest_spec (P := (· ∈ indexesOf l t)) (hle i hi) hi, fun j hj => ?_⟩
  exact Nat.le_findGreatest (hle j hj) hj

/-- A search that finds the end of every term finds nothing exactly where there is no entry. -/
theorem eq_none_iff_of_ends {found : Option Nat} {end? : Nat → Prop}
    (hfound : ∀ i, found = some i ↔ end? i) (hmem : ∀ i, end? i → i ∈ indexesOf l t)
    (hex : (indexesOf l t).Nonempty → ∃ i, end? i) : found = none ↔ ∀ e ∈ l, e.term ≠ t := by
  rw [← indexesOf_eq_empty_iff]
  constructor
  · intro h
    by_contra hne
    obtain ⟨i, hi⟩ := hex (Set.nonempty_iff_ne_empty.2 hne)
    rw [(hfound i).2 hi] at h
    cases h
  · intro h
    refine Option.eq_none_iff_forall_ne_some.2 fun i hi => ?_
    have := hmem i ((hfound i).1 hi)
    rw [h] at this
    exact this

/-! ## Scanning a sorted list -/

section Sorted

variable (hplace : Positioned l) (hsorted : l.Pairwise fun a b => a.term ≤ b.term)
include hplace hsorted

omit hplace in
theorem term_le_of_sorted {j : Nat} {x : Entry} (hij : i ≤ j) (he : entryAt l i = some e)
    (hx : entryAt l j = some x) : e.term ≤ x.term := by
  obtain ⟨hi, he⟩ := entryAt_eq_some_iff.1 he
  obtain ⟨hj, hx⟩ := entryAt_eq_some_iff.1 hx
  obtain ⟨hil, rfl⟩ := List.getElem?_eq_some_iff.1 he
  obtain ⟨hjl, rfl⟩ := List.getElem?_eq_some_iff.1 hx
  rcases Nat.eq_or_lt_of_le hij with rfl | hlt
  · exact Nat.le_refl _
  · exact List.pairwise_iff_getElem.1 hsorted _ _ hil hjl (by omega)

/-- The first entry whose term is not lower is the first of its term. -/
theorem scan_front_eq_some_iff :
    (((l.find? fun e => t ≤ e.term).filter fun e => e.term = t).map Entry.index) = some i
      ↔ IsLeast (indexesOf l t) i := by
  constructor
  · intro h
    obtain ⟨e, he, rfl⟩ := Option.map_eq_some_iff.1 h
    obtain ⟨hfind, hterm⟩ := Option.filter_eq_some_iff.1 he
    have hterm : e.term = t := by simpa using hterm
    obtain ⟨-, k, hk, hkl, hbefore⟩ := List.find?_eq_some_iff_getElem.1 hfind
    have hentry : entryAt l (k + 1) = some e := by
      rw [entryAt_succ, List.getElem?_eq_getElem hk, hkl]
    rw [hplace _ _ hentry]
    refine ⟨⟨e, hentry, hterm⟩, ?_⟩
    rintro j ⟨x, hx, hxt⟩
    -- an earlier entry of the term would have ended the scan before
    by_contra hlt
    obtain ⟨hj, hx⟩ := entryAt_eq_some_iff.1 hx
    obtain ⟨hjl, rfl⟩ := List.getElem?_eq_some_iff.1 hx
    have := hbefore (j - 1) (by omega)
    simp only [Bool.not_eq_true', decide_eq_false_iff_not] at this
    omega
  · rintro ⟨⟨e, he, hterm⟩, hleast⟩
    obtain ⟨hi, hget⟩ := entryAt_eq_some_iff.1 he
    obtain ⟨hil, hel⟩ := List.getElem?_eq_some_iff.1 hget
    have hfind : (l.find? fun e => t ≤ e.term) = some e := by
      refine List.find?_eq_some_iff_getElem.2 ⟨by simp [hterm], i - 1, hil, hel, fun j hj => ?_⟩
      -- before the least index of the term all terms are lower
      have hjl : j < l.length := by omega
      have hx : entryAt l (j + 1) = some l[j] := by rw [entryAt_succ, List.getElem?_eq_getElem hjl]
      have hle := term_le_of_sorted hsorted (by omega) hx he
      have hne : l[j].term ≠ t := fun ht => by
        have : i ≤ j + 1 := hleast ⟨_, hx, ht⟩
        omega
      simp only [Bool.not_eq_true', decide_eq_false_iff_not]
      omega
    rw [hfind, Option.filter_some_pos (by simpa using hterm), Option.map_some, hplace i e he]

/-- From the back, the first entry whose term is not higher is the last of its term. -/
theorem scan_back_eq_some_iff :
    (((l.reverse.find? fun e => e.term ≤ t).filter fun e => e.term = t).map Entry.index) = some i
      ↔ IsGreatest (indexesOf l t) i := by
  have hback : ∀ k (hk : k < l.reverse.length),
      entryAt l (l.length - k) = some l.reverse[k] := by
    intro k hk
    rw [List.length_reverse] at hk
    refine entryAt_eq_some_iff.2 ⟨by omega, ?_⟩
    rw [List.getElem_reverse, ← List.getElem?_eq_getElem]
    congr 1
    omega
  constructor
  · intro h
    obtain ⟨e, he, rfl⟩ := Option.map_eq_some_iff.1 h
    obtain ⟨hfind, hterm⟩ := Option.filter_eq_some_iff.1 he
    have hterm : e.term = t := by simpa using hterm
    obtain ⟨-, k, hk, hkl, hbefore⟩ := List.find?_eq_some_iff_getElem.1 hfind
    have hentry := hback k hk
    rw [hkl] at hentry
    rw [hplace _ _ hentry]
    refine ⟨⟨e, hentry, hterm⟩, ?_⟩
    rintro j ⟨x, hx, hxt⟩
    -- a later entry of the term comes earlier from the back
    by_contra hlt
    have hj := le_length_of_entryAt hx
    have hlater := hback (l.length - j) (by rw [List.length_reverse]; omega)
    rw [show l.length - (l.length - j) = j by omega, hx] at hlater
    have := hbefore (l.length - j) (by omega)
    rw [← Option.some.inj hlater] at this
    simp only [Bool.not_eq_true', decide_eq_false_iff_not] at this
    omega
  · rintro ⟨⟨e, he, hterm⟩, hgreatest⟩
    have hi := le_length_of_entryAt he
    have hil : l.length - i < l.reverse.length := by rw [List.length_reverse]; omega
    have hel : l.reverse[l.length - i] = e := by
      have := hback _ hil
      rw [show l.length - (l.length - i) = i by omega, he] at this
      exact (Option.some.inj this).symm
    have hfind : (l.reverse.find? fun e => e.term ≤ t) = some e := by
      refine List.find?_eq_some_iff_getElem.2 ⟨by simp [hterm], _, hil, hel, fun j hj => ?_⟩
      -- after the greatest index of the term all terms are higher
      have hx := hback j (by omega)
      have hle := term_le_of_sorted hsorted (by omega) he hx
      have hne : l.reverse[j].term ≠ t := fun ht => by
        have : l.length - j ≤ i := hgreatest ⟨_, hx, ht⟩
        omega
      simp only [Bool.not_eq_true', decide_eq_false_iff_not]
      omega
    rw [hfind, Option.filter_some_pos (by simpa using hterm), Option.map_some, hplace i e he]

/-- A store that scans sorted entries from both ends finds the ends of every term. -/
theorem findsTerms_of_scans {σ : Type} [LogStore σ] {s : σ}
    (hfirst : ∀ t, LogStore.firstIndexOf? s t
      = ((l.find? fun e => t ≤ e.term).filter fun e => e.term = t).map Entry.index)
    (hlast : ∀ t, LogStore.lastIndexOf? s t
      = ((l.reverse.find? fun e => e.term ≤ t).filter fun e => e.term = t).map Entry.index) :
    FindsTerms s l := by
  have hleast : ∀ t i, LogStore.firstIndexOf? s t = some i ↔ IsLeast (indexesOf l t) i :=
    fun t i => by rw [hfirst, scan_front_eq_some_iff hplace hsorted]
  have hgreatest : ∀ t i, LogStore.lastIndexOf? s t = some i ↔ IsGreatest (indexesOf l t) i :=
    fun t i => by rw [hlast, scan_back_eq_some_iff hplace hsorted]
  exact
    { first := hleast
      first_none := fun t => eq_none_iff_of_ends (hleast t) (fun _ h => h.1) exists_isLeast
      last := hgreatest
      last_none := fun t => eq_none_iff_of_ends (hgreatest t) (fun _ h => h.1) exists_isGreatest }

end Sorted

/-! ## Both stores -/

theorem Log.findsTerms {l : Log} (hplace : Positioned l.entries)
    (hsorted : l.entries.Pairwise fun a b => a.term ≤ b.term) : FindsTerms l l.entries :=
  findsTerms_of_scans hplace hsorted (firstIndexOf?_eq_find? hsorted) (lastIndexOf?_eq_find? hsorted)

/-- The durable log scans the entries that can be read from its tree. -/
theorem KeyedLog.findsTerms {k : KeyedLog} (hplace : Positioned (readable k.tree.values))
    (hsorted : (readable k.tree.values).Pairwise fun a b => a.term ≤ b.term) :
    FindsTerms k (readable k.tree.values) :=
  findsTerms_of_scans hplace hsorted (fun _ => rfl) fun _ => rfl

theorem KeyedLog.readable_append (hplace : Consecutive 0 l) (hfits : ∀ e ∈ l, e.Fits)
    (hroom : l.length < maxWord) :
    readable (Action.state ((LogStore.append l).run ({} : KeyedLog))).tree.values = l := by
  have hmirror := (append_agree mirrors_empty hplace hfits (by simpa using hroom)).2
  have hextend : Log.extend [] l = ([] ++ l, none) := Log.extend_of_consecutive hplace
  have hlist := mirrors_empty.run_list_append l
  rw [hextend] at hlist
  rw [hmirror.readable_eq]
  show (Action.state ((Log.append l).run {})).entries = l
  rw [hlist]
  rfl

end Raft
