import Mathlib.Data.Finset.Card
import Mathlib.Data.Finset.Dedup
import Raft.Proofs.Log.Hints
import Raft.Proofs.Replication

/-!
# Probing a follower's log

A leader looks for a position where a follower's log agrees with its own. Each probe that is
rejected comes with a hint, which says where to probe next. The search moves towards the first entry
and stays behind the part that both logs share. A rejection rules out a whole term of the follower:
either the leader does not have that term, and goes on before it, or the leader has it too, and then
its own last entry of that term is where the logs agree.

* `sharedLength l f`: how many entries two lists share.
* `hint_between`: where a hint leads, even if the leader's log has grown since.
* `SameStarts l f`: a term that both lists have begins at the same index in both.
* `budget f i`: how many rejections there can be from the position `i` on. `next_cases` says that
  each costs one.
-/

namespace Raft

open LawfulStore (Holds faults)

variable {σ τ : Type} [LogStore σ] [LogStore τ] {s : σ} {u : τ} {l l' f : List Entry}
  {i m t next : Nat} {hint : ConflictHint}

/-! ## What two lists share -/

/-- How many entries two lists share from the start. -/
def sharedLength : List Entry → List Entry → Nat
  | a :: l, b :: f => if a = b then sharedLength l f + 1 else 0
  | _, _ => 0

theorem le_sharedLength_iff : m ≤ sharedLength l f ↔ m ≤ l.length ∧ l.take m <+: f := by
  fun_induction sharedLength l f generalizing m with
  | case1 l a f ih =>
    cases m with
    | zero => simp
    | succ m => simp [ih]
  | case2 a l b f hne =>
    cases m with
    | zero => simp
    | succ m => simp [hne]
  | case3 l f hnil =>
    cases m with
    | zero => simp
    | succ m =>
      cases l with
      | nil => simp
      | cons a l =>
        cases f with
        | nil => simp
        | cons b f => exact (hnil a l b f rfl rfl).elim

theorem sharedLength_le : sharedLength l f ≤ l.length := (le_sharedLength_iff.1 (Nat.le_refl _)).1

theorem take_sharedLength : l.take (sharedLength l f) <+: f :=
  (le_sharedLength_iff.1 (Nat.le_refl _)).2

theorem sharedLength_lt (hi : i ≤ l.length) (hne : termAt f i ≠ termAt l i) :
    sharedLength l f < i := by
  by_contra hge
  obtain ⟨e, he⟩ := exists_termAt hi
  refine hne ?_
  rw [he]
  refine termAt_of_isPrefix (take_sharedLength (l := l)) ?_
  rwa [termAt_take (Nat.not_lt.1 hge)]

/-! ## Where a hint leads -/

section Lawful

variable [LawfulStore σ] [LawfulStore τ]

theorem LawfulStore.reads (h : Holds s l) (hl : l.Pairwise fun a b => a.term ≤ b.term) :
    Reads s l where
  lastIndex := lastIndex_eq h
  term? i hi := by
    have hroom := room h
    have hword := maxWord_lt_wordSize
    exact term?_eq h (by omega)
  finds := findsTerms h hl
  rising := hl

/-- The leader always finds an index to go on with. -/
theorem exists_nextAfterConflict (h : Holds s l) (hl : l.Pairwise fun a b => a.term ≤ b.term)
    (hint : ConflictHint) (hi : 0 < i) :
    ∃ next, LogStore.nextAfterConflict s hint i = .ok next ∧ next ≤ i := by
  refine exists_nextAfterConflict_of_lt (fun t last hlast => ?_) hint hi
  obtain ⟨⟨e, he, -⟩, -⟩ := ((LawfulStore.findsTerms h hl).last t last).1 hlast
  have hle := (le_length_of_entryAt he).2
  have hroom := LawfulStore.room h
  unfold maxWord at hroom
  omega

/-- **Conflict hints never overshoot.** The leader's log is `l` when a follower whose log is `f`
rejects the position `i`, and has grown to `l'` when the leader reads the hint. Then the leader goes
on behind everything that `l` and `f` share, and not behind the rejected position. -/
theorem hint_between (hl' : Holds s l') (hf : Holds u f) (hext : l <+: l')
    (hlsorted : l'.Pairwise fun a b => a.term ≤ b.term)
    (hfsorted : f.Pairwise fun a b => a.term ≤ b.term) (hi : i ≤ l.length)
    (hreject : termAt f i ≠ termAt l i) :
    ∃ hint next, LogStore.conflictHint u i = .ok hint
      ∧ LogStore.nextAfterConflict s hint i = .ok next
      ∧ sharedLength l f < next ∧ next ≤ i := by
  have hshared := sharedLength_lt hi hreject
  obtain ⟨hint, hhint⟩ := exists_conflictHint hf i
  obtain ⟨next, hnext, -⟩ := exists_nextAfterConflict hl' hlsorted hint (Nat.zero_lt_of_lt hshared)
  refine ⟨hint, next, hhint, hnext, ?_⟩
  have hlong := sharedLength_le (l := l) (f := f)
  refine nextAfterConflict_bounds (LawfulStore.reads hl' hlsorted) (LawfulStore.reads hf hfsorted)
    (Nat.le_trans hlong hext.length_le) ?_ hshared hhint hnext
  rw [take_eq_of_isPrefix hext hlong]
  exact take_sharedLength

/-- The log of the next leader, which has gone on in terms of its own. -/
def renewed : List Entry :=
  [.noop 1 1, .noop 2 1, .noop 3 3, .noop 4 3, .noop 5 3, .noop 6 3, .noop 7 4]

theorem holds_renewed : Holds ({ entries := renewed } : Log) renewed := ⟨rfl, by decide, by decide⟩

/-- The leader had five entries when its last one was rejected. -/
theorem hint_between_of_renewed :
    termAt lapsed 5 ≠ termAt (renewed.take 5) 5
      ∧ ∃ hint next, LogStore.conflictHint lapsedStore 5 = .ok hint
        ∧ LogStore.nextAfterConflict ({ entries := renewed } : Log) hint 5 = .ok next
        ∧ sharedLength (renewed.take 5) lapsed < next ∧ next ≤ 5 :=
  ⟨by decide, hint_between holds_renewed holds_lapsed (List.take_prefix 5 renewed) (by decide)
    (by decide) (by decide) (by decide)⟩

end Lawful

/-! ## What a rejection costs -/

/-- A term that both lists have begins at the same index in both. -/
def SameStarts (l f : List Entry) : Prop :=
  ∀ t i j, IsLeast (indexesOf l t) i → IsLeast (indexesOf f t) j → i = j

/-- The first place of a term in the list of terms is the least index that holds it. -/
theorem isLeast_idxOf (h : t ∈ l.map Entry.term) :
    IsLeast (indexesOf l t) ((l.map Entry.term).idxOf t + 1) := by
  have hlt := List.idxOf_lt_length_of_mem h
  constructor
  · obtain ⟨e, he⟩ := exists_entryAt (l := l) (Nat.succ_pos _) (by rwa [List.length_map] at hlt)
    refine ⟨e, he, ?_⟩
    obtain ⟨-, rfl⟩ := List.getElem?_eq_some_iff.1 (entryAt_eq_some_iff.1 he).2
    rw [← List.getElem_map Entry.term]
    exact List.getElem_idxOf hlt
  · rintro j ⟨e, he, ht⟩
    by_contra hbefore
    obtain ⟨hj, hget⟩ := entryAt_eq_some_iff.1 he
    obtain ⟨hjl, rfl⟩ := List.getElem?_eq_some_iff.1 hget
    have hearly : j - 1 < (l.map Entry.term).findIdx (· == t) := by
      show j - 1 < (l.map Entry.term).idxOf t
      omega
    have hne := List.not_of_lt_findIdx hearly
    rw [List.getElem_map, ht] at hne
    simp at hne

theorem sameStarts_iff : SameStarts l f ↔ ∀ t ∈ l.map Entry.term, t ∈ f.map Entry.term →
    (l.map Entry.term).idxOf t = (f.map Entry.term).idxOf t := by
  constructor
  · intro h t hl hf
    exact Nat.succ_inj.1 (h t _ _ (isLeast_idxOf hl) (isLeast_idxOf hf))
  · intro h t i j hi hj
    have hmem : ∀ {m : List Entry} {k}, IsLeast (indexesOf m t) k → t ∈ m.map Entry.term := by
      rintro m k ⟨⟨e, he, rfl⟩, -⟩
      exact List.mem_map_of_mem (mem_of_entryAt he)
    rw [hi.unique (isLeast_idxOf (hmem hi)), hj.unique (isLeast_idxOf (hmem hj)),
      h t (hmem hi) (hmem hj)]

instance (l f : List Entry) : Decidable (SameStarts l f) := decidable_of_iff _ sameStarts_iff.symm

/-- The terms of a list up to a position. -/
def termsUpTo (f : List Entry) (i : Nat) : Finset Nat := ((f.take i).map Entry.term).toFinset

/-- How many probes can be rejected from a position on: one for each term up to there, and one if
the list ends before. -/
def budget (f : List Entry) (i : Nat) : Nat :=
  (termsUpTo f i).card + if f.length < i then 1 else 0

theorem mem_termsUpTo : t ∈ termsUpTo f i ↔ ∃ j ≤ i, j ∈ indexesOf f t := by
  unfold termsUpTo
  rw [List.mem_toFinset, List.mem_map]
  constructor
  · rintro ⟨e, he, ht⟩
    obtain ⟨j, hj⟩ := exists_entryAt_of_mem he
    have hle := (le_length_of_entryAt hj).2
    rw [List.length_take] at hle
    have hji : j ≤ i := by omega
    exact ⟨j, hji, e, by rwa [entryAt_take hji] at hj, ht⟩
  · rintro ⟨j, hj, e, he, ht⟩
    exact ⟨e, mem_of_entryAt (by rwa [entryAt_take hj]), ht⟩

theorem termsUpTo_subset (h : m ≤ i) : termsUpTo f m ⊆ termsUpTo f i := by
  intro t ht
  obtain ⟨j, hj, hjt⟩ := mem_termsUpTo.1 ht
  exact mem_termsUpTo.2 ⟨j, Nat.le_trans hj h, hjt⟩

theorem budget_le (f : List Entry) (i : Nat) :
    budget f i ≤ 1 + (f.map Entry.term).toFinset.card := by
  have hall : termsUpTo f i ⊆ (f.map Entry.term).toFinset := by
    intro t ht
    obtain ⟨j, -, e, he, rfl⟩ := mem_termsUpTo.1 ht
    exact List.mem_toFinset.2 (List.mem_map_of_mem (mem_of_entryAt he))
  have hcard := Finset.card_le_card hall
  unfold budget
  split <;> omega

theorem budget_pos (hi : 0 < i) : 0 < budget f i := by
  unfold budget
  split
  · omega
  · rename_i hle
    obtain ⟨e, he⟩ := exists_entryAt hi (Nat.not_lt.1 hle)
    have hmem : e.term ∈ termsUpTo f i := mem_termsUpTo.2 ⟨i, Nat.le_refl i, e, he, rfl⟩
    have := Finset.card_pos.2 ⟨_, hmem⟩
    omega

/-- Before the first entry of a term that is passed, the budget is smaller. -/
theorem budget_lt_of_isLeast (hm : IsLeast (indexesOf f t) m) (hmi : m ≤ i) :
    budget f (m - 1) < budget f i := by
  obtain ⟨e, he, -⟩ := hm.1
  obtain ⟨hpos, hle⟩ := le_length_of_entryAt he
  have hmem : t ∈ termsUpTo f i := mem_termsUpTo.2 ⟨m, hmi, hm.1⟩
  have hnot : t ∉ termsUpTo f (m - 1) := by
    intro ht
    obtain ⟨j, hj, hjt⟩ := mem_termsUpTo.1 ht
    have := hm.2 hjt
    omega
  have hcard := Finset.card_lt_card
    ⟨termsUpTo_subset (f := f) (show m - 1 ≤ i by omega), fun hsub => hnot (hsub hmem)⟩
  unfold budget
  rw [if_neg (show ¬ f.length < m - 1 by omega)]
  omega

/-- Where both logs have the term that the follower has at the position, the leader's last entry of
that term is where they agree. -/
theorem termAt_last_eq (hl : Reads s l) (hf : Reads u f) (hstart : SameStarts l f) {e : Entry}
    {last : Nat} (he : entryAt f i = some e) (hil : i ≤ l.length)
    (hne : termAt f i ≠ termAt l i) (hlast : IsGreatest (indexesOf l e.term) last) :
    last < i ∧ termAt f last = termAt l last := by
  obtain ⟨hpos, hif⟩ := le_length_of_entryAt he
  obtain ⟨start, hleast⟩ := exists_isLeast ⟨last, hlast.1⟩
  obtain ⟨start', hleast'⟩ := exists_isLeast (l := f) ⟨i, e, he, rfl⟩
  obtain rfl := hstart e.term start start' hleast hleast'
  obtain ⟨x, hx⟩ := exists_entryAt hpos hil
  obtain ⟨y, hy, hyt⟩ := hlast.1
  have hstarti : start ≤ i := hleast'.2 ⟨e, he, rfl⟩
  have hxe : x.term ≠ e.term := by
    intro hxe
    refine hne ?_
    rw [termAt_of_entryAt he, termAt_of_entryAt hx, hxe]
  -- the leader has another term at the position, which is behind the start of this one
  have hlt : last < i := by
    by_contra hge
    obtain ⟨z, hz, hzt⟩ := hleast.1
    have hlow := term_le_of_sorted hl.rising hstarti hz hx
    have hhigh := term_le_of_sorted hl.rising (Nat.not_lt.1 hge) hx hy
    omega
  refine ⟨hlt, ?_⟩
  -- between the start and the position, the follower has this term only
  have hstartlast : start ≤ last := hleast.2 hlast.1
  obtain ⟨z, hz, hzt⟩ := hleast'.1
  have hlastpos := (le_length_of_entryAt hy).1
  obtain ⟨w, hw⟩ := exists_entryAt (l := f) hlastpos (by omega)
  have hlow := term_le_of_sorted hf.rising hstartlast hz hw
  have hhigh := term_le_of_sorted hf.rising (Nat.le_of_lt hlt) hw he
  rw [termAt_of_entryAt hw, termAt_of_entryAt hy]
  congr 1
  omega

/-- A rejected probe leads to a position where the logs agree, or to one with a smaller budget. -/
theorem next_cases (hl : Reads s l) (hf : Reads u f) (hstart : SameStarts l f) (hi : 0 < i)
    (hil : i ≤ l.length) (hne : termAt f i ≠ termAt l i)
    (hhint : LogStore.conflictHint u i = .ok hint)
    (hnext : LogStore.nextAfterConflict s hint i = .ok next) :
    0 < next ∧ next ≤ i
      ∧ (termAt f (next - 1) = termAt l (next - 1) ∨ budget f (next - 1) < budget f i) := by
  obtain ⟨first, rfl, hfirst⟩ := next_of_nextAfterConflict hnext
  refine ⟨by omega, by omega, ?_⟩
  rcases hf.conflictHint_cases hi hhint with ⟨hlt, rfl⟩ | ⟨e, he, hterm, hleast⟩
  · -- the follower's log ends before the position
    right
    obtain rfl : first = f.length + 1 := hfirst
    have hsub := Finset.card_le_card (termsUpTo_subset (f := f) (Nat.le_of_lt hlt))
    rw [show max 1 (min (f.length + 1) (max 1 i)) - 1 = f.length by omega]
    unfold budget
    rw [if_pos hlt, if_neg (Nat.lt_irrefl _)]
    omega
  · rw [hterm] at hfirst
    dsimp only [Option.bind] at hfirst
    have hpos := (le_length_of_entryAt he).1
    cases hlast : LogStore.lastIndexOf? s e.term with
    | none =>
      rw [hlast] at hfirst
      obtain rfl : first = hint.index := hfirst
      -- the leader lacks the term: the probe passes all of it
      right
      obtain ⟨x, hx, -⟩ := id hleast.1
      have hplace := (le_length_of_entryAt hx).1
      have hle := hleast.2 ⟨e, he, rfl⟩
      rw [show max 1 (min hint.index (max 1 i)) - 1 = hint.index - 1 by omega]
      exact budget_lt_of_isLeast hleast hle
    | some last =>
      rw [hlast] at hfirst
      obtain rfl : first = last + 1 := hfirst
      -- the leader has the term: its last entry of it is where the logs meet
      left
      obtain ⟨hlt, hagree⟩ :=
        termAt_last_eq hl hf hstart he hil hne ((hl.finds.last e.term last).1 hlast)
      rwa [show max 1 (min (last + 1) (max 1 i)) - 1 = last by omega]

end Raft
