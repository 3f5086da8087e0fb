import Raft.Proofs.Log.Lawful
import Raft.Proofs.Log.Matching
import Raft.Replication

/-!
# What an append request does to a log

The entries of a request follow its position without a gap. A log that has the position also has
the entries up to the first gap, which is where an entry is missing or has another term. There the
log is cut, unless what would go is committed, and the rest of the request is written.

* `AppendRequest.clashes q l`, `AppendRequest.gaps q l`: the indexes where an entry stands against
  one of another term, and those where it stands so or is missing.
* `MergeEnds`: all the ways in which the merge of a request can end, with the store it leaves.
  `run_merge` says that there are no others.
* `merged_writtenAt`: what is written from the first gap on is what every merge may leave, and the
  whole request is there.
-/

namespace Raft

/-- The request is one that a leader can send: its entries follow its position, its values are
words, and behind its entries there is room for one more. -/
structure AppendRequest.WellFormed (q : AppendRequest) : Prop where
  consecutive : Consecutive q.prevIndex q.entries
  prevIndex : q.prevIndex < wordSize
  fits : ∀ e ∈ q.entries, e.Fits
  room : ∀ e ∈ q.entries, e.index < maxWord

/-- The indexes where the list holds an entry of another term than the request. -/
def AppendRequest.clashes (q : AppendRequest) (l : List Entry) : Set Nat :=
  {i | ∃ e ∈ q.entries, e.index = i ∧ ∃ x, entryAt l i = some x ∧ x.term ≠ e.term}

/-- The indexes where the list does not hold an entry of the request's term. -/
def AppendRequest.gaps (q : AppendRequest) (l : List Entry) : Set Nat :=
  {i | ∃ e ∈ q.entries, e.index = i ∧ ¬ Knows l e}

variable {q : AppendRequest} {l : List Entry} {i : Nat}

/-! ## The first gap -/

theorem clashes_subset_gaps : q.clashes l ⊆ q.gaps l := by
  rintro i ⟨e, he, rfl, x, hx, hterm⟩
  refine ⟨e, he, rfl, fun hknows => ?_⟩
  obtain ⟨y, hy, hsame⟩ := knows_iff_exists.1 hknows
  obtain rfl : x = y := Option.some.inj (hx.symm.trans hy)
  exact hterm hsame

theorem mem_clashes_of_mem_gaps (hi : i ∈ q.gaps l) {x : Entry} (hx : entryAt l i = some x) :
    i ∈ q.clashes l := by
  obtain ⟨e, he, rfl, hknows⟩ := hi
  exact ⟨e, he, rfl, x, hx, fun hterm => hknows (knows_of_entryAt hx hterm)⟩

theorem gaps_eq_empty_iff : q.gaps l = ∅ ↔ ∀ e ∈ q.entries, Knows l e := by
  rw [Set.eq_empty_iff_forall_notMem]
  constructor
  · intro h e he
    by_contra hknows
    exact h e.index ⟨e, he, rfl, hknows⟩
  · rintro h _ ⟨e, he, -, hknows⟩
    exact hknows (h e he)

/-- The request's entries before its first gap are known, and the list reaches up to there. -/
structure FirstGap (q : AppendRequest) (l : List Entry) (known : List Entry) (e : Entry)
    (rest : List Entry) : Prop where
  entries : q.entries = known ++ e :: rest
  before : ∀ x ∈ known, Knows l x
  unknown : ¬ Knows l e
  index : e.index = q.prevIndex + known.length + 1
  le_length : e.index ≤ l.length + 1

section FirstGap

variable {known rest : List Entry} {e : Entry}

theorem firstGap_of_split (hq : Consecutive q.prevIndex q.entries) (hprev : q.prevIndex ≤ l.length)
    (hes : q.entries = known ++ e :: rest) (hknown : ∀ x ∈ known, Knows l x)
    (he : ¬ Knows l e) : FirstGap q l known e rest where
  entries := hes
  before := hknown
  unknown := he
  index := hq known.length e (by simp [hes])
  le_length := by
    rw [hq known.length e (by simp [hes])]
    rcases List.eq_nil_or_concat known with rfl | ⟨init, x, rfl⟩
    · simpa using hprev
    · obtain ⟨y, hy, -⟩ := knows_iff_exists.1 (hknown x (by simp))
      have hx := hq init.length x (by simp [hes])
      have := (le_length_of_entryAt hy).2
      simp only [List.concat_eq_append, List.length_append, List.length_singleton]
      omega

variable (h : FirstGap q l known e rest)
include h

theorem FirstGap.drop_eq : q.entries.drop (e.index - (q.prevIndex + 1)) = e :: rest := by
  have hlength : e.index - (q.prevIndex + 1) = known.length := by
    have := h.index
    omega
  rw [hlength, h.entries, List.drop_left]

theorem FirstGap.isLeast (hq : Consecutive q.prevIndex q.entries) :
    IsLeast (q.gaps l) e.index := by
  refine ⟨⟨e, by simp [h.entries], rfl, h.unknown⟩, ?_⟩
  rintro i ⟨x, hx, rfl, hunknown⟩
  obtain ⟨k, hk⟩ := List.getElem?_of_mem hx
  have hindex := hq k x hk
  have hplace := h.index
  by_contra hlt
  -- an entry before the gap is one of the known ones
  have hkl : k < known.length := by omega
  rw [h.entries, List.getElem?_append_left hkl] at hk
  exact hunknown (h.before x (List.mem_of_getElem? hk))

theorem FirstGap.isLeast_clashes (hq : Consecutive q.prevIndex q.entries) {x : Entry}
    (hx : entryAt l e.index = some x) : IsLeast (q.clashes l) e.index := by
  have hleast := h.isLeast hq
  exact ⟨mem_clashes_of_mem_gaps hleast.1 hx, fun i hi => hleast.2 (clashes_subset_gaps hi)⟩

theorem FirstGap.clashes_eq_empty (hq : Consecutive q.prevIndex q.entries)
    (hfree : entryAt l e.index = none) : q.clashes l = ∅ := by
  rw [Set.eq_empty_iff_forall_notMem]
  intro i hi
  have hle := (h.isLeast hq).2 (clashes_subset_gaps hi)
  obtain ⟨-, -, -, x, hx, -⟩ := hi
  obtain ⟨y, hy⟩ := exists_entryAt (l := l) (i := e.index) (by have := h.index; omega)
    (Nat.le_trans hle (le_length_of_entryAt hx).2)
  rw [hfree] at hy
  cases hy

end FirstGap

/-- Every least gap is the first one in the order of the request. -/
theorem exists_firstGap (hq : Consecutive q.prevIndex q.entries) (hprev : q.prevIndex ≤ l.length)
    (hi : IsLeast (q.gaps l) i) :
    ∃ known e rest, FirstGap q l known e rest ∧ e.index = i := by
  obtain ⟨known, hes, hknown, hhead⟩ := exists_known_append_unknown { entries := l } q.entries
  cases hunknown : LogStore.unknown ({ entries := l } : Log) q.entries with
  | nil =>
    rw [hunknown, List.append_nil] at hes
    have hnone : q.gaps l = ∅ := gaps_eq_empty_iff.2 (by rw [hes]; exact hknown)
    rw [hnone] at hi
    exact hi.1.elim
  | cons e rest =>
    rw [hunknown] at hes
    have hgap := firstGap_of_split hq hprev hes hknown (hhead e rest hunknown)
    exact ⟨known, e, rest, hgap, (hgap.isLeast hq).unique hi⟩

/-! ## The list with the request written -/

/-- The list up to an index, with the rest of the request from there on. -/
def AppendRequest.writtenAt (q : AppendRequest) (l : List Entry) (i : Nat) : List Entry :=
  l.take (i - 1) ++ q.entries.drop (i - (q.prevIndex + 1))

/-- From the first gap on, the rest of the request is written. -/
theorem merged_writtenAt {commit : Nat} (hq : Consecutive q.prevIndex q.entries)
    (hprev : q.prevIndex ≤ l.length) (hi : IsLeast (q.gaps l) i)
    (hcommit : ∀ k ∈ q.clashes l, commit < k) :
    Merged commit l q.entries (q.writtenAt l i)
      ∧ ∀ e ∈ q.entries, Knows (q.writtenAt l i) e := by
  obtain ⟨known, e, rest, hgap, rfl⟩ := exists_firstGap hq hprev hi
  have hindex := hgap.index
  have hend := hgap.le_length
  have hlength : (l.take (e.index - 1)).length = e.index - 1 := by
    rw [List.length_take]
    omega
  have hplace : Consecutive (e.index - 1) (e :: rest) := by
    have hall := hq
    rw [hgap.entries, consecutive_append] at hall
    rw [hindex, Nat.add_sub_cancel]
    exact hall.2
  unfold AppendRequest.writtenAt
  rw [hgap.drop_eq]
  constructor
  · cases hx : entryAt l e.index with
    | none =>
      -- the log ends before the gap, so that nothing is cut
      have hall : l.length ≤ e.index - 1 := by
        by_contra hlt
        obtain ⟨x, hsome⟩ := exists_entryAt (l := l) (i := e.index) (by omega) (by omega)
        rw [hx] at hsome
        cases hsome
      rw [List.take_of_length_le hall] at hlength ⊢
      exact Merged.extended hgap.entries hgap.before hx List.prefix_rfl (hlength ▸ hplace)
    | some x =>
      -- what stands in the gap is of another term, and is not committed
      have hclash := (hgap.isLeast_clashes hq hx).1
      have hterm : x.term ≠ e.term := fun ht => hgap.unknown (knows_of_entryAt hx ht)
      exact Merged.cut hgap.entries hgap.before hx hterm (hcommit _ hclash) List.prefix_rfl hplace
  · rw [hgap.entries]
    refine knows_append (hgap.entries ▸ hq) (fun x hx hlt => ?_) (hlength.symm ▸ hplace)
    exact (hgap.before x hx).take (by omega)

/-! ## The merge -/

section Merge

variable {σ : Type} [LogStore σ] [LawfulStore σ] {s : σ} {commit : Nat}

open LawfulStore (Holds faults)

theorem LawfulStore.prevTerm?_eq (h : Holds s l) (hi : i < wordSize) :
    LogStore.prevTerm? s i = termAt l i := by
  unfold LogStore.prevTerm? termAt
  rw [LawfulStore.term?_eq h hi]

theorem LawfulStore.unknown_eq (h : Holds s l) {es : List Entry}
    (hes : ∀ e ∈ es, e.index < wordSize) :
    LogStore.unknown s es = LogStore.unknown ({ entries := l } : Log) es := by
  refine unknown_congr fun e he => ?_
  rw [LawfulStore.term?_eq h (hes e he), Log.term?_eq]

theorem AppendRequest.WellFormed.last_lt (hq : q.WellFormed) : q.last < wordSize := by
  unfold AppendRequest.last
  rcases List.eq_nil_or_concat q.entries with hnil | ⟨init, x, hes⟩
  · rw [hnil]
    exact hq.prevIndex
  · have hx := hq.consecutive init.length x (by simp [hes])
    have hword := (hq.fits x (by simp [hes])).1
    rw [hes, List.concat_eq_append, List.length_append, List.length_singleton]
    omega

omit [LawfulStore σ] in
/-- A request whose position is not in the log changes nothing. -/
theorem run_merge_of_absent (h : LogStore.prevTerm? s q.prevIndex ≠ some q.prevTerm) :
    (LogStore.merge q.prevIndex q.prevTerm q.entries commit).run s = .ok none s := by
  unfold LogStore.merge
  show (if LogStore.prevTerm? s q.prevIndex = some q.prevTerm then _ else _ :
    Action σ (Option Nat)).run s = _
  rw [if_neg h]
  rfl

omit [LawfulStore σ] in
/-- One whose position is in the log is merged, unless that fails. -/
theorem merge_ensures_isSome (h : LogStore.prevTerm? s q.prevIndex = some q.prevTerm) :
    (LogStore.merge q.prevIndex q.prevTerm q.entries commit).Ensures s
      (fun r _ => ∃ m, r = some m) fun _ _ => True := by
  unfold LogStore.merge
  refine Action.ensures_get_bind ?_
  rw [if_pos h]
  refine (Action.ensures_true _ s).bind fun m t _ => ?_
  split
  · exact Action.ensures_pure ⟨m, rfl⟩
  · split
    · split
      · trivial
      · refine (Action.ensures_true _ t).bind fun _ t _ => ?_
        refine (Action.ensures_true _ t).bind fun _ t _ => ?_
        exact Action.ensures_pure ⟨m, rfl⟩
    · refine (Action.ensures_true _ t).bind fun _ t _ => ?_
      exact Action.ensures_pure ⟨m, rfl⟩

/-- All the ways in which the merge of a request into a store with the entries `l` can end. -/
inductive MergeEnds (s : σ) (l : List Entry) (q : AppendRequest) (commit : Nat) :
    EStateM.Result (Failure Error) σ (Option Nat) → Prop
  /-- The position is not in the log. -/
  | absent (hprev : termAt l q.prevIndex ≠ some q.prevTerm) : MergeEnds s l q commit (.ok none s)
  /-- Nothing is missing. -/
  | present (hprev : termAt l q.prevIndex = some q.prevTerm) (hgaps : q.gaps l = ∅) :
      MergeEnds s l q commit (.ok (some q.last) s)
  /-- What would be cut is committed. -/
  | refused {i : Nat} (hprev : termAt l q.prevIndex = some q.prevTerm)
      (hclash : IsLeast (q.clashes l) i) (hle : i ≤ commit) :
      MergeEnds s l q commit (.error (.error (.replication (.committedConflict i commit))) s)
  /-- Cutting fails. -/
  | uncut {i : Nat} (hprev : termAt l q.prevIndex = some q.prevTerm)
      (hclash : IsLeast (q.clashes l) i) (hlt : commit < i) (hfault : (faults s).truncate = true) :
      MergeEnds s l q commit (.error (.error (LogFaults.error "truncate")) s)
  /-- The log is cut, and then writing fails. -/
  | cut {i : Nat} {s' : σ} (hprev : termAt l q.prevIndex = some q.prevTerm)
      (hclash : IsLeast (q.clashes l) i) (hlt : commit < i) (hfault : (faults s).append = true)
      (hs' : Holds s' (l.take (i - 1))) :
      MergeEnds s l q commit (.error (.error (LogFaults.error "append")) s')
  /-- Nothing is cut, and writing fails. -/
  | unextended {i : Nat} (hprev : termAt l q.prevIndex = some q.prevTerm)
      (hgap : IsLeast (q.gaps l) i) (hclash : q.clashes l = ∅)
      (hfault : (faults s).append = true) :
      MergeEnds s l q commit (.error (.error (LogFaults.error "append")) s)
  /-- The rest of the request is written from the first gap on. -/
  | written {i : Nat} {s' : σ} (hprev : termAt l q.prevIndex = some q.prevTerm)
      (hgap : IsLeast (q.gaps l) i) (hclash : ∀ k ∈ q.clashes l, commit < k)
      (hs' : Holds s' (q.writtenAt l i)) :
      MergeEnds s l q commit (.ok (some q.last) s')

section Write

variable {known rest : List Entry} {e : Entry} (hq : q.WellFormed)
  (hprev : termAt l q.prevIndex = some q.prevTerm) (hgap : FirstGap q l known e rest)
include hq hprev hgap

/-- What follows once everything from the first gap on is gone: the rest of the request is written. -/
theorem mergeEnds_of_write {t : σ} (ht : Holds t (l.take (e.index - 1)))
    (hfaults : faults t = faults s) (hclash : ∀ k ∈ q.clashes l, commit < k)
    (hfails : (faults s).append = true →
      MergeEnds s l q commit (.error (.error (LogFaults.error "append")) t)) :
    MergeEnds s l q commit
      ((do LogStore.append (e :: rest); return some q.last : Action σ (Option Nat)).run t) := by
  rw [EStateM.run_bind]
  by_cases hfault : (faults s).append = true
  · rw [LawfulStore.run_append_of_fault _ (hfaults ▸ hfault)]
    exact hfails hfault
  · have hfault : (faults t).append = false := by
      rw [hfaults]
      simpa using hfault
    have hindex := hgap.index
    have hend := hgap.le_length
    have hlength : (l.take (e.index - 1)).length = q.prevIndex + known.length := by
      rw [List.length_take]
      omega
    have hplace : Consecutive (l.take (e.index - 1)).length (e :: rest) := by
      have hall := hq.consecutive
      rw [hgap.entries, consecutive_append] at hall
      rw [hlength]
      exact hall.2
    have hmem : ∀ x ∈ e :: rest, x ∈ q.entries := fun x hx => by
      rw [hgap.entries]
      exact List.mem_append_right _ hx
    have hroom : (l.take (e.index - 1)).length + (e :: rest).length < maxWord := by
      obtain ⟨init, x, hes⟩ := (List.eq_nil_or_concat (e :: rest)).resolve_left (by simp)
      have hx := hplace init.length x (by simp [hes])
      have hword := hq.room x (hmem x (by simp [hes]))
      rw [hes, List.concat_eq_append, List.length_append, List.length_singleton]
      omega
    obtain ⟨t', hrun, ht', -⟩ := LawfulStore.run_append ht hfault hplace
      (fun x hx => hq.fits x (hmem x hx)) hroom
    rw [hrun]
    refine MergeEnds.written hprev (hgap.isLeast hq.consecutive) hclash ?_
    unfold AppendRequest.writtenAt
    rwa [hgap.drop_eq]

/-- The first gap is behind the end of the log: nothing is cut. -/
theorem mergeEnds_of_free (hs : Holds s l) (hfree : entryAt l e.index = none) :
    MergeEnds s l q commit
      ((do LogStore.append (e :: rest); return some q.last : Action σ (Option Nat)).run s) := by
  have hclash := hgap.clashes_eq_empty hq.consecutive hfree
  have hall : l.take (e.index - 1) = l := by
    refine List.take_of_length_le (Nat.le_of_not_lt fun hlt => ?_)
    have hindex := hgap.index
    obtain ⟨x, hx⟩ := exists_entryAt (l := l) (i := e.index) (by omega) (by omega)
    rw [hfree] at hx
    cases hx
  refine mergeEnds_of_write hq hprev hgap (hall.symm ▸ hs) rfl (by simp [hclash]) fun hfault => ?_
  exact MergeEnds.unextended hprev (hgap.isLeast hq.consecutive) hclash hfault

/-- An entry that is not committed stands against the request's: the log is cut there. -/
theorem mergeEnds_of_cut (hs : Holds s l) {x : Entry} (hx : entryAt l e.index = some x)
    (hcommit : commit < e.index) :
    MergeEnds s l q commit
      ((do
        LogStore.truncate e.index
        LogStore.append (e :: rest)
        return some q.last : Action σ (Option Nat)).run s) := by
  have hclash := hgap.isLeast_clashes hq.consecutive hx
  rw [EStateM.run_bind]
  by_cases hfault : (faults s).truncate = true
  · rw [LawfulStore.run_truncate_of_fault _ hfault]
    exact MergeEnds.uncut hprev hclash hcommit hfault
  · have hword : e.index < wordSize := (hq.fits e (by simp [hgap.entries])).1
    obtain ⟨t, hrun, ht, hfaults⟩ := LawfulStore.run_truncate hs (by simpa using hfault) hword
    rw [hrun]
    refine mergeEnds_of_write hq hprev hgap ht hfaults
      (fun k hk => Nat.lt_of_lt_of_le hcommit (hclash.2 hk)) fun hfault => ?_
    exact MergeEnds.cut hprev hclash hcommit hfault ht

end Write

/-- The merge ends in one of these ways. -/
theorem run_merge (hs : Holds s l) (hq : q.WellFormed) (commit : Nat) :
    MergeEnds s l q commit ((LogStore.merge q.prevIndex q.prevTerm q.entries commit).run s) := by
  have hword : ∀ e ∈ q.entries, e.index < wordSize := fun e he => (hq.fits e he).1
  have hsum : sum (ε := Error) q.prevIndex q.entries.length = .ok q.last :=
    sum_eq_ok_iff.2 ⟨hq.last_lt, rfl⟩
  unfold LogStore.merge
  show MergeEnds s l q commit
    ((if LogStore.prevTerm? s q.prevIndex = some q.prevTerm then _ else _ :
      Action σ (Option Nat)).run s)
  rw [LawfulStore.prevTerm?_eq hs hq.prevIndex, hsum, LawfulStore.unknown_eq hs hword]
  by_cases hprev : termAt l q.prevIndex = some q.prevTerm
  · rw [if_pos hprev]
    obtain ⟨known, hes, hknown, hhead⟩ := exists_known_append_unknown { entries := l } q.entries
    cases hunknown : LogStore.unknown ({ entries := l } : Log) q.entries with
    | nil =>
      rw [hunknown, List.append_nil] at hes
      exact MergeEnds.present hprev (gaps_eq_empty_iff.2 (by rw [hes]; exact hknown))
    | cons e rest =>
      rw [hunknown] at hes
      have hgap := firstGap_of_split hq.consecutive (le_length_of_termAt hprev) hes hknown
        (hhead e rest hunknown)
      show MergeEnds s l q commit
        ((if (LogStore.term? s e.index).isSome then _ else _ : Action σ (Option Nat)).run s)
      rw [LawfulStore.term?_eq hs (hword e (by simp [hes]))]
      cases hx : entryAt l e.index with
      | none => exact mergeEnds_of_free hq hprev hgap hs hx
      | some x =>
        simp only [Option.map_some, Option.isSome_some, if_true]
        by_cases hcommit : e.index ≤ commit
        · rw [if_pos hcommit]
          exact MergeEnds.refused hprev (hgap.isLeast_clashes hq.consecutive hx) hcommit
        · rw [if_neg hcommit]
          exact mergeEnds_of_cut hq hprev hgap hs hx (Nat.not_le.1 hcommit)
  · rw [if_neg hprev]
    exact MergeEnds.absent hprev

theorem run_merge_of_present (hs : Holds s l) (hq : q.WellFormed)
    (hprev : termAt l q.prevIndex = some q.prevTerm) (hgaps : q.gaps l = ∅) :
    (LogStore.merge q.prevIndex q.prevTerm q.entries commit).run s = .ok (some q.last) s := by
  have hnone : ∀ i, ¬ i ∈ q.gaps l := by simp [hgaps]
  have hends := run_merge hs hq commit
  generalize (LogStore.merge q.prevIndex q.prevTerm q.entries commit).run s = r at hends
  cases hends with
  | absent habsent => exact absurd hprev habsent
  | present => rfl
  | refused _ hclash | uncut _ hclash | cut _ hclash =>
    exact absurd (clashes_subset_gaps hclash.1) (hnone _)
  | unextended _ hgap | written _ hgap => exact absurd hgap.1 (hnone _)

theorem present_writtenAt (hq : q.WellFormed) (hprev : termAt l q.prevIndex = some q.prevTerm)
    (hgap : IsLeast (q.gaps l) i) (hclash : ∀ k ∈ q.clashes l, commit < k) :
    termAt (q.writtenAt l i) q.prevIndex = some q.prevTerm ∧ q.gaps (q.writtenAt l i) = ∅ := by
  obtain ⟨hmerged, hknows⟩ :=
    merged_writtenAt hq.consecutive (le_length_of_termAt hprev) hgap hclash
  exact ⟨hmerged.termAt_eq hq.consecutive hprev, gaps_eq_empty_iff.2 hknows⟩

end Merge

end Raft
