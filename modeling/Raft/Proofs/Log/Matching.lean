import Raft.Proofs.Log.Merge

/-!
# Logs that match

Two logs match when they are equal up to every position where they agree in term. The merge of a
request that is a part of one of them brings the other in line with it: what both share survives,
and what the request covers is shared afterwards.

* `Matching l L`: the two logs match.
* `AppendRequest.IsPartOf`: the request is a part of a log.
* `merged_cases`, `prefix_of_merged`: what a merge leaves.
* `merge_catches`: the merge of a part of a matching log, when nothing is made to fail.
-/

namespace Raft

/-- Two logs are equal up to every position where they agree in term. -/
def Matching (l L : List Entry) : Prop :=
  ∀ i t, termAt l i = some t → termAt L i = some t → l.take i = L.take i

/-- The request is a part of a log: its entries follow its position, where the log has its term. -/
structure AppendRequest.IsPartOf (r : AppendRequest) (l : List Entry) : Prop where
  prev : termAt l r.prevIndex = some r.prevTerm
  entries : r.entries <+: l.drop r.prevIndex

/-- The last index that a request covers. -/
def AppendRequest.last (r : AppendRequest) : Nat := r.prevIndex + r.entries.length

/-- The log agrees in term with everything that a request covers. -/
structure AppendRequest.HeldBy (r : AppendRequest) (l : List Entry) : Prop where
  prev : termAt l r.prevIndex = some r.prevTerm
  entries : ∀ e ∈ r.entries, Knows l e

variable {l l' L : List Entry} {i k : Nat}

theorem matching_iff :
    Matching l L ↔ ∀ i < l.length + 1, termAt l i = termAt L i → l.take i = L.take i := by
  constructor
  · intro h i hi hterm
    obtain ⟨t, ht⟩ := exists_termAt (l := l) (i := i) (by omega)
    exact h i t ht (hterm ▸ ht)
  · intro h i t ht ht'
    have := le_length_of_termAt ht
    exact h i (by omega) (ht.trans ht'.symm)

instance (l L : List Entry) : Decidable (Matching l L) := decidable_of_iff _ matching_iff.symm

theorem matching_of_isPrefix (h : l <+: L) : Matching l L := fun _ _ ht _ =>
  (take_eq_of_isPrefix h (le_length_of_termAt ht)).symm

/-! ## Requests that are a part of a log -/

section Part

variable {q : AppendRequest} (hpart : q.IsPartOf L)
include hpart

theorem entryAt_of_isPartOf {e : Entry} (hk : q.entries[k]? = some e) :
    entryAt L (q.prevIndex + k + 1) = some e := by
  obtain ⟨rest, hrest⟩ := hpart.entries
  have hlt := (List.getElem?_eq_some_iff.1 hk).1
  rw [entryAt_succ, ← List.getElem?_drop, ← hrest, List.getElem?_append_left hlt, hk]

theorem last_le_length_of_isPartOf : q.last ≤ L.length := by
  have h1 := hpart.entries.length_le
  have h2 := le_length_of_termAt hpart.prev
  rw [List.length_drop] at h1
  unfold AppendRequest.last
  omega

theorem consecutive_of_isPartOf (hL : Positioned L) : Consecutive q.prevIndex q.entries :=
  fun _ _ hk => hL _ _ (entryAt_of_isPartOf hpart hk)

/-- A log that knows the position of a request and its first entries agrees with the request's
log up to there. -/
theorem take_eq_of_knows {known rest : List Entry} (hm : Matching l L) (hL : Positioned L)
    (hprev : termAt l q.prevIndex = some q.prevTerm) (hes : q.entries = known ++ rest)
    (hknown : ∀ x ∈ known, Knows l x) :
    q.prevIndex + known.length ≤ l.length
      ∧ l.take (q.prevIndex + known.length) = L.take (q.prevIndex + known.length) := by
  rcases List.eq_nil_or_concat known with rfl | ⟨init, x, rfl⟩
  · exact ⟨le_length_of_termAt hprev, hm _ _ hprev hpart.prev⟩
  · have hx : entryAt L (q.prevIndex + init.length + 1) = some x := by
      refine entryAt_of_isPartOf hpart ?_
      rw [hes]
      simp
    obtain ⟨y, hy, hterm⟩ := knows_iff_exists.1 (hknown x (by simp))
    rw [hL _ _ hx] at hy
    rw [List.concat_eq_append, List.length_append, List.length_singleton, ← Nat.add_assoc]
    refine ⟨(le_length_of_entryAt hy).2, hm _ _ (termAt_of_entryAt hy) ?_⟩
    rw [termAt_of_entryAt hx, hterm]

theorem take_eq_of_heldBy (hm : Matching l L) (hL : Positioned L) (hheld : q.HeldBy l) :
    q.last ≤ l.length ∧ l.take q.last = L.take q.last :=
  take_eq_of_knows hpart hm hL hheld.prev (List.append_nil _).symm hheld.entries

/-- Where a log that knows the first entries of a request does not know the next one, it goes on
as the request's log if the rest of the request is written there. -/
theorem prefix_of_unknown {known rest new : List Entry} {e : Entry} (hm : Matching l L)
    (hL : Positioned L) (hprev : termAt l q.prevIndex = some q.prevTerm)
    (hes : q.entries = known ++ e :: rest) (hknown : ∀ x ∈ known, Knows l x)
    (hnew : new <+: e :: rest) :
    0 < e.index ∧ e.index - 1 ≤ l.length ∧ entryAt L e.index = some e
      ∧ l.take (e.index - 1) = L.take (e.index - 1) ∧ l.take (e.index - 1) ++ new <+: L := by
  obtain ⟨hlen, htake⟩ := take_eq_of_knows hpart hm hL hprev hes hknown
  have he : entryAt L (q.prevIndex + known.length + 1) = some e :=
    entryAt_of_isPartOf hpart (by rw [hes]; simp)
  have hrest : e :: rest <+: L.drop (q.prevIndex + known.length) := by
    have := hpart.entries
    rw [hes] at this
    obtain ⟨tail, htail⟩ := this
    refine ⟨tail, ?_⟩
    rw [← List.drop_drop, ← htail, List.append_assoc, List.drop_left]
  rw [hL _ _ he, Nat.add_sub_cancel]
  refine ⟨Nat.succ_pos _, hlen, he, htake, ?_⟩
  rw [htake]
  have := (List.prefix_append_right_inj (L.take (q.prevIndex + known.length))).2 (hnew.trans hrest)
  rwa [List.take_append_drop] at this

/-- The merge leaves a log as it is, or makes it a part of the request's log that keeps everything
before the first difference. -/
theorem merged_cases (hm : Matching l L) (hL : Positioned L)
    (hprev : termAt l q.prevIndex = some q.prevTerm) (hmerged : Merged k l q.entries l') :
    l' = l ∨ l' <+: L ∧ ∃ j e, l.take j <+: l' ∧ entryAt L (j + 1) = some e
      ∧ entryAt l (j + 1) ≠ some e := by
  cases hmerged with
  | same => exact Or.inl rfl
  | @extended known rest new e hes hknown hfree hnew hplace =>
    right
    obtain ⟨hpos, hlen, he, -, hpre⟩ := prefix_of_unknown hpart hm hL hprev hes hknown hnew
    have hall : l.take (e.index - 1) = l := by
      refine List.take_of_length_le (Nat.le_of_not_lt fun hlt => ?_)
      obtain ⟨x, hx⟩ := exists_entryAt (l := l) hpos (by omega)
      rw [hfree] at hx
      cases hx
    rw [hall] at hpre
    refine ⟨hpre, e.index - 1, e, ?_, ?_, ?_⟩
    · rw [hall]
      exact List.prefix_append _ _
    · rwa [Nat.sub_add_cancel hpos]
    · rw [Nat.sub_add_cancel hpos, hfree]
      simp
  | @cut known rest new e x hes hknown hx hterm hcommit hnew hplace =>
    right
    obtain ⟨hpos, hlen, he, -, hpre⟩ := prefix_of_unknown hpart hm hL hprev hes hknown hnew
    refine ⟨hpre, e.index - 1, e, List.prefix_append _ _, ?_, ?_⟩
    · rwa [Nat.sub_add_cancel hpos]
    · rw [Nat.sub_add_cancel hpos, hx]
      rintro ⟨rfl⟩
      exact hterm rfl

/-- **The merge.** What a log shares with the request's log survives it. -/
theorem prefix_of_merged {P : List Entry} (hm : Matching l L) (hL : Positioned L)
    (hprev : termAt l q.prevIndex = some q.prevTerm) (hmerged : Merged k l q.entries l')
    (hP : P <+: l) (hPL : P <+: L) : P <+: l' := by
  rcases merged_cases hpart hm hL hprev hmerged with rfl | ⟨-, j, e, hj, heL, hel⟩
  · exact hP
  · rcases Nat.lt_or_ge j P.length with hlt | hge
    · -- the first difference would lie within the shared part
      obtain ⟨x, hx⟩ := exists_entryAt (Nat.succ_pos j) hlt
      have hxL := entryAt_of_isPrefix hPL hx
      rw [heL] at hxL
      rw [← hxL] at hx
      exact absurd (entryAt_of_isPrefix hP hx) hel
    · exact (List.prefix_take_iff.2 ⟨hP, hge⟩).trans hj

/-- Nothing that a log shares with the request's log is contradicted by the request. -/
theorem not_contradicts (hm : Matching l L) (hL : Positioned L)
    (hprev : termAt l q.prevIndex = some q.prevTerm) (hk : l.take k <+: L) :
    ¬ Contradicts k l q.entries := by
  rintro ⟨known, e, rest, x, hes, hknown, hx, hterm, hle⟩
  obtain ⟨-, -, he, -, -⟩ := prefix_of_unknown hpart hm hL hprev hes hknown List.prefix_rfl
  have hxL := entryAt_of_isPrefix hk (by rwa [entryAt_take hle])
  rw [he] at hxL
  exact hterm (congrArg Entry.term (Option.some.inj hxL)).symm

end Part

/-! ## What a leader sends -/

theorem Log.slice_prefix (l : Log) (lo hi : Nat) : l.slice lo hi <+: l.entries.drop (lo - 1) := by
  unfold Log.slice
  rw [List.drop_take, show max lo 1 - 1 = lo - 1 by omega]
  exact List.take_prefix _ _

/-- What a leader sends is a part of its log. -/
theorem appendRequest_isPartOf {l : Log} {leader term next commit limit : Nat} {r : AppendRequest}
    (h : LogStore.appendRequest l leader term next commit limit = .ok r) :
    r.term = term ∧ r.leader = leader ∧ r.commit = commit ∧ r.IsPartOf l.entries := by
  unfold LogStore.appendRequest at h
  obtain ⟨bound, hbound, h⟩ := exists_of_bind_eq_ok h
  obtain ⟨-, rfl⟩ := sum_eq_ok_iff.1 hbound
  have hlast : LogStore.lastIndex l = l.entries.length := rfl
  rw [hlast] at h
  dsimp only at h
  generalize hnext : max 1 (min next (l.entries.length + 1)) = first at h
  have hprev : termAt l.entries (first - 1)
      = some ((LogStore.prevTerm? l (first - 1)).getD 0) := by
    obtain ⟨t, ht⟩ := exists_termAt (l := l.entries) (i := first - 1) (by omega)
    rw [Log.prevTerm?_eq, ht]
    rfl
  split at h
  · obtain ⟨upper, -, h⟩ := exists_of_bind_eq_ok h
    obtain ⟨entries, hentries, h⟩ := exists_of_bind_eq_ok h
    obtain rfl := Except.ok.inj h
    refine ⟨rfl, rfl, rfl, hprev, ?_⟩
    have hrange : LogStore.range l first (min l.entries.length (upper - 1)) = .ok entries := by
      cases hr : LogStore.range l first (min l.entries.length (upper - 1)) with
      | ok es =>
        rw [hr] at hentries
        rw [Except.ok.inj hentries]
      | error e =>
        rw [hr] at hentries
        cases hentries
    have hslice : l.range first (min l.entries.length (upper - 1)) = .ok entries := hrange
    unfold Log.range at hslice
    split at hslice
    · cases hslice
    · rw [← Except.ok.inj hslice]
      exact l.slice_prefix _ _
  · obtain rfl := Except.ok.inj h
    exact ⟨rfl, rfl, rfl, hprev, List.nil_prefix⟩

/-! ## Merging a part of a matching log -/

/-- The log has what the request covers of its log `L`: it had that before, or now ends there. -/
structure Caught (q : AppendRequest) (L : List Entry) (l l' : Log) : Prop where
  faults : l'.faults = l.faults
  cases : l'.entries = l.entries ∨ l'.entries = L.take q.last
  take_eq : l'.entries.take q.last = L.take q.last

/-- Behind what is left of the log, the unknown end of the request is written. -/
theorem append_catches {l k : Log} {q : AppendRequest} {known rest : List Entry} {e : Entry}
    (hpart : q.IsPartOf L) (hm : Matching l.entries L) (hL : Positioned L)
    (hprev : termAt l.entries q.prevIndex = some q.prevTerm)
    (hes : q.entries = known ++ e :: rest) (hknown : ∀ x ∈ known, Knows l.entries x)
    (hfaults : l.faults = {}) (hkfaults : k.faults = l.faults)
    (hk : k.entries = l.entries.take (e.index - 1)) :
    (do Log.append (e :: rest); return some q.last).Ensures k
      (fun r l' => r = some q.last ∧ Caught q L l l') fun _ _ => False := by
  obtain ⟨-, hlen, -, -, hpre⟩ :=
    prefix_of_unknown hpart hm hL hprev hes hknown List.prefix_rfl
  have hindex : e.index = q.prevIndex + known.length + 1 :=
    hL _ _ (entryAt_of_isPartOf hpart (by simp [hes]))
  -- what is left ends just before the entry, where the rest goes on
  have hend : k.entries.length = q.prevIndex + known.length := by
    rw [hk, List.length_take]
    omega
  have hplace : Consecutive k.entries.length (e :: rest) := by
    have hall := consecutive_of_isPartOf hpart hL
    rw [hes, consecutive_append] at hall
    rw [hend]
    exact hall.2
  have hlength : (k.entries ++ e :: rest).length = q.last := by
    unfold AppendRequest.last
    rw [List.length_append, hend, hes, List.length_append]
    omega
  have htake : k.entries ++ e :: rest = L.take q.last := by
    rw [← hk] at hpre
    rw [← hlength]
    exact List.prefix_iff_eq_take.1 hpre
  refine Action.ensures_bind_of_run (Log.run_append (by rw [hkfaults, hfaults]) hplace) ?_
  refine Action.ensures_pure ⟨rfl, ?_⟩
  exact
    { faults := hkfaults
      cases := Or.inr htake
      take_eq := by
        show (k.entries ++ e :: rest).take q.last = L.take q.last
        rw [htake, List.take_take, Nat.min_self] }

/-- The merge of a part of a matching log succeeds, when nothing is made to fail and what is
committed is shared. -/
theorem merge_catches {l : Log} {q : AppendRequest} {commit : Nat} (hpart : q.IsPartOf L)
    (hm : Matching l.entries L) (hL : Positioned L)
    (hprev : termAt l.entries q.prevIndex = some q.prevTerm)
    (hcommit : l.entries.take commit <+: L) (hlast : q.last < wordSize) (hfaults : l.faults = {}) :
    (LogStore.merge q.prevIndex q.prevTerm q.entries commit).Ensures l
      (fun r l' => r = some q.last ∧ Caught q L l l') fun _ _ => False := by
  obtain ⟨known, hes, hknown, hhead⟩ := exists_known_append_unknown l q.entries
  have hsum : sum (ε := Error) q.prevIndex q.entries.length = .ok q.last :=
    sum_eq_ok_iff.2 ⟨hlast, rfl⟩
  unfold LogStore.merge
  refine Action.ensures_get_bind ?_
  rw [Log.prevTerm?_eq, if_pos hprev, hsum]
  refine Action.ensures_bind_of_run rfl ?_
  cases hunknown : LogStore.unknown l q.entries with
  | nil =>
    have hall : ∀ x ∈ q.entries, Knows l.entries x := by
      rw [hes, hunknown, List.append_nil]
      exact hknown
    obtain ⟨-, htake⟩ := take_eq_of_heldBy hpart hm hL ⟨hprev, hall⟩
    exact Action.ensures_pure ⟨rfl, rfl, Or.inl rfl, htake⟩
  | cons e rest =>
    rw [hunknown] at hes
    obtain ⟨hpos, hlen, -, -, -⟩ :=
      prefix_of_unknown hpart hm hL hprev hes hknown List.prefix_rfl
    dsimp only
    rw [Log.term?_eq]
    cases hx : entryAt l.entries e.index with
    | none =>
      -- the log ends before the entry: nothing is cut
      have hall : l.entries.take (e.index - 1) = l.entries := by
        refine List.take_of_length_le (Nat.le_of_not_lt fun hlt => ?_)
        obtain ⟨x, hsome⟩ := exists_entryAt (l := l.entries) hpos (by omega)
        rw [hx] at hsome
        cases hsome
      exact append_catches hpart hm hL hprev hes hknown hfaults rfl hall.symm
    | some x =>
      have hterm : x.term ≠ e.term := fun ht => hhead e rest hunknown (knows_of_entryAt hx ht)
      -- what stands against the request is not committed, as that is shared
      have hfree : ¬ e.index ≤ commit := fun hle =>
        not_contradicts hpart hm hL hprev hcommit ⟨known, e, rest, x, hes, hknown, hx, hterm, hle⟩
      simp only [Option.map_some, Option.isSome_some, if_true, hfree, if_false]
      refine Action.ensures_bind_of_run (Log.run_truncate e.index (by rw [hfaults])) ?_
      exact append_catches hpart hm hL hprev hes hknown hfaults rfl rfl

end Raft
