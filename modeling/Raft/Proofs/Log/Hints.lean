import Raft.Proofs.Log.Sorted
import Raft.Proofs.Node.Follower

/-!
# Where a conflict hint leads

A log that rejects an append request names a term and where it begins there, or where it ends. The
leader looks that term up in its own log, which may have grown since, and goes on behind it. As
terms never decrease in either log, it never goes back behind what the two logs share.

* `Reads s l`: the store `s` answers as the list `l`, whose terms never decrease.
* `Log.Ordered l`: the entries stand at their indexes, in terms that never decrease.
* `Reads.conflictHint_cases`: the two kinds of hint.
* `nextAfterConflict_bounds`: what the leader sends next is not shared, and not beyond the rejected
  position.
-/

namespace Raft

/-- The store answers as a list whose terms never decrease. -/
structure Reads {σ : Type} [LogStore σ] (s : σ) (l : List Entry) : Prop where
  lastIndex : LogStore.lastIndex s = l.length
  term? : ∀ i ≤ l.length, LogStore.term? s i = (entryAt l i).map Entry.term
  finds : FindsTerms s l
  rising : l.Pairwise fun a b => a.term ≤ b.term

/-- The entries stand at their indexes, in terms that never decrease. -/
structure Log.Ordered (l : Log) : Prop where
  positioned : Positioned l.entries
  rising : l.entries.Pairwise fun a b => a.term ≤ b.term

theorem Log.Ordered.reads {l : Log} (h : l.Ordered) : Reads l l.entries where
  lastIndex := rfl
  term? _ _ := rfl
  finds := Log.findsTerms h.positioned h.rising
  rising := h.rising

section Hint

variable {σ τ : Type} [LogStore σ] [LogStore τ] {s : σ} {u : τ} {l f : List Entry}
  {prev next m : Nat} {hint : ConflictHint}

/-- A log that is too short names the index after its last entry; another one names the term at the
position, and the first index of that term. -/
theorem Reads.conflictHint_cases (h : Reads u f) (hprev : 0 < prev)
    (hhint : LogStore.conflictHint u prev = .ok hint) :
    f.length < prev ∧ hint = ⟨f.length + 1, none⟩
      ∨ ∃ e, entryAt f prev = some e ∧ hint.term = some e.term
        ∧ IsLeast (indexesOf f e.term) hint.index := by
  unfold LogStore.conflictHint at hhint
  rw [h.lastIndex] at hhint
  split at hhint
  · rename_i hlt
    obtain ⟨beyond, hsum, hhint⟩ := exists_of_bind_eq_ok hhint
    obtain ⟨-, rfl⟩ := sum_eq_ok_iff.1 hsum
    exact Or.inl ⟨hlt, (Except.ok.inj hhint).symm⟩
  · rename_i hle
    obtain ⟨e, he⟩ := exists_entryAt hprev (Nat.not_lt.1 hle)
    have hterm : LogStore.term? u prev = some e.term := by
      rw [h.term? prev (Nat.not_lt.1 hle), he]
      rfl
    have hmem : (indexesOf f e.term).Nonempty := ⟨prev, e, he, rfl⟩
    obtain ⟨i, hi⟩ := exists_isLeast hmem
    rw [hterm] at hhint
    dsimp only at hhint
    rw [(h.finds.first e.term i).2 hi] at hhint
    obtain rfl := Except.ok.inj hhint
    exact Or.inr ⟨e, he, rfl, hi⟩

/-- The leader goes on behind the term if it has it, else at the hint, but not beyond the rejected
position. -/
theorem next_of_nextAfterConflict (h : LogStore.nextAfterConflict s hint prev = .ok next) :
    ∃ first, next = max 1 (min first (max 1 prev))
      ∧ match hint.term.bind (LogStore.lastIndexOf? s) with
        | some last => first = last + 1
        | none => first = hint.index := by
  unfold LogStore.nextAfterConflict at h
  cases hterm : hint.term with
  | none =>
    rw [hterm] at h
    exact ⟨hint.index, (Except.ok.inj h).symm, rfl⟩
  | some t =>
    rw [hterm] at h
    dsimp only [Option.bind] at h ⊢
    cases hlast : LogStore.lastIndexOf? s t with
    | none =>
      rw [hlast] at h
      exact ⟨hint.index, (Except.ok.inj h).symm, rfl⟩
    | some last =>
      rw [hlast] at h
      obtain ⟨first, hsum, h⟩ := exists_of_bind_eq_ok h
      exact ⟨first, (Except.ok.inj h).symm, (sum_eq_ok_iff.1 hsum).2.symm⟩

/-- The first `m` entries are shared, but the rejected position comes after them. Then what the
leader sends next comes after them too, and does not come after the rejected position. -/
theorem nextAfterConflict_bounds (hl : Reads s l) (hf : Reads u f) (hm : m ≤ l.length)
    (hshared : l.take m <+: f) (hprev : m < prev)
    (hhint : LogStore.conflictHint u prev = .ok hint)
    (hnext : LogStore.nextAfterConflict s hint prev = .ok next) : m < next ∧ next ≤ prev := by
  obtain ⟨first, rfl, hfirst⟩ := next_of_nextAfterConflict hnext
  suffices hlow : m < first by omega
  -- an entry of the shared part is in both logs
  have hboth : ∀ {i e}, i ≤ m → (entryAt l i = some e ↔ entryAt f i = some e) := by
    intro i e hi
    have hlength : (l.take m).length = m := by
      rw [List.length_take, Nat.min_eq_left hm]
    have htake := take_eq_of_isPrefix hshared (Nat.le_of_eq hlength.symm)
    rw [List.take_take, Nat.min_self] at htake
    rw [entryAt_congr htake hi]
  rcases hf.conflictHint_cases (by omega) hhint with ⟨-, rfl⟩ | ⟨e, he, hterm, hleast⟩
  · have hle := hshared.length_le
    rw [List.length_take, Nat.min_eq_left hm] at hle
    rw [show first = f.length + 1 from hfirst]
    exact Nat.lt_succ_of_le hle
  · rw [hterm] at hfirst
    dsimp only [Option.bind] at hfirst
    cases hlast : LogStore.lastIndexOf? s e.term with
    | none =>
      rw [hlast] at hfirst
      obtain rfl : first = hint.index := hfirst
      -- the leader has no entry of the term, so that the term begins after the shared part
      by_contra hge
      obtain ⟨x, hx, hxe⟩ := hleast.1
      have hmem := mem_of_entryAt ((hboth (Nat.not_lt.1 hge)).2 hx)
      exact (hl.finds.last_none e.term).1 hlast x hmem hxe
    | some last =>
      rw [hlast] at hfirst
      obtain rfl : first = last + 1 := hfirst
      have hgreatest := (hl.finds.last e.term last).1 hlast
      -- an entry of the shared part after the term would be of a greater one, before the position
      by_contra hge
      obtain ⟨x, hx⟩ := exists_entryAt (l := l) (i := m) (by omega) hm
      obtain ⟨y, hy, hye⟩ := hgreatest.1
      have hlow := term_le_of_sorted hl.rising (by omega) hy hx
      have hhigh := term_le_of_sorted hf.rising (by omega) ((hboth (Nat.le_refl m)).1 hx) he
      have : m ≤ last := hgreatest.2 ⟨x, hx, by omega⟩
      omega

end Hint

variable {l : Log} {next m : Nat} {hint : ConflictHint}

/-- A log that was found to reject a request shares its first `m` entries with another one. -/
def Admits (l : Log) (m : Nat) (r : AppendRequest) (hint : ConflictHint) : Prop :=
  ∃ f : Log, f.Ordered ∧ Rejects f r hint ∧ l.entries.take m <+: f.entries

/-- The leader of a rejected request never goes back behind what is shared. -/
theorem Admits.bounds {r : AppendRequest} (h : Admits l m r hint) (hl : l.Ordered)
    (hm : m ≤ l.entries.length) (hr : termAt l.entries r.prevIndex = some r.prevTerm)
    (hnext : LogStore.nextAfterConflict l hint r.prevIndex = .ok next) :
    m < next ∧ next ≤ r.prevIndex := by
  obtain ⟨f, hf, ⟨hreject, hhint⟩, hshared⟩ := h
  refine nextAfterConflict_bounds hl.reads hf.reads hm hshared ?_ hhint hnext
  by_contra hge
  refine hreject (termAt_of_isPrefix hshared ?_)
  rwa [termAt_take (Nat.not_lt.1 hge)]

end Raft
