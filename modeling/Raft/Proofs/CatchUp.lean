import Raft.Proofs.Pursuit

/-!
# Catching up

A leader brings a follower in line by requests and answers alone. After a rejection it probes below
the rejected position, so that after finitely many it meets a position where the logs agree, at the
latest the one before the first entry. From there on every request is accepted and brings the
follower at least one entry further, until it has the whole log.

* `Pursuit.Trails s`: what holds of the two logs throughout.
* `exists_rejects`, `round_accepted`: a round in each of the two phases.
* `catch_up_converges` is the result.
-/

namespace Raft

def halfRange : Nat := 0x8000000000000000

/-- The leader's entries stand at their indexes, nothing is made to fail, and the sums it takes stay
words. -/
structure Supplier.Sound (s : Supplier Log) : Prop where
  positioned : Positioned s.log.entries
  short : s.log.lastIndex < halfRange
  limit : s.limit < halfRange
  faults : s.log.faults = {}

namespace Pursuit

variable {s : Supplier Log} {c : Pursuit Log} {i : Nat}

/-- The two logs match, and what the follower committed is shared. -/
structure Trails (s : Supplier Log) (c : Pursuit Log) : Prop where
  matching : Matching c.log.entries s.log.entries
  shared : c.log.entries.take c.commit <+: s.log.entries
  short : c.log.lastIndex < halfRange
  faults : c.log.faults = {}

/-- The position that the next request is checked at. -/
def probe (s : Supplier Log) (c : Pursuit Log) : Nat := c.position s.log.lastIndex

/-- The follower has the leader's term at the position of the next request. -/
def Meets (s : Supplier Log) (c : Pursuit Log) : Prop :=
  termAt c.log.entries (c.probe s) = termAt s.log.entries (c.probe s)

/-! ## The request -/

theorem exists_request (hs : s.Sound) (c : Pursuit Log) :
    ∃ q, s.request c.next = .ok q ∧ q.prevIndex = c.probe s
      ∧ min s.log.lastIndex (q.prevIndex + 1) ≤ q.last := by
  have hshort := hs.short
  have hlimit := hs.limit
  unfold halfRange at hshort hlimit
  have hholds : LawfulStore.Holds s.log s.log.entries := by
    refine ⟨rfl, hs.positioned, ?_⟩
    show s.log.lastIndex < maxWord
    unfold maxWord wordSize
    omega
  have hread : (LawfulStore.faults s.log).read = false := by
    show s.log.faults.read = false
    rw [hs.faults]
  have hsums : s.log.entries.length + max 1 s.limit < wordSize := by
    show s.log.lastIndex + max 1 s.limit < wordSize
    unfold wordSize
    omega
  obtain ⟨q, hq, -, hfar⟩ :=
    exists_appendRequest hholds hread hsums s.leader s.term c.next s.commit
  exact ⟨q, hq, (position_of_appendRequest hholds hq).1, hfar⟩

/-! ## Rejection -/

theorem lastIndexOf?_le {l : Log} {t last : Nat} (hl : Positioned l.entries)
    (h : l.lastIndexOf? t = some last) : last ≤ l.lastIndex := by
  unfold Log.lastIndexOf? at h
  split at h
  · cases h
  · obtain ⟨e, he, rfl⟩ := Option.map_eq_some_iff.1 h
    have hplace := List.mem_of_getElem? (Option.filter_eq_some_iff.1 he).1
    obtain ⟨j, hj⟩ := exists_entryAt_of_mem hplace
    rw [hl j e hj]
    exact (le_length_of_entryAt hj).2

theorem exists_next (hs : s.Sound) (hint : ConflictHint) (hi : 0 < i) :
    ∃ next, LogStore.nextAfterConflict s.log hint i = .ok next ∧ next ≤ i := by
  refine exists_nextAfterConflict_of_lt (fun t last hlast => ?_) hint hi
  have hle := lastIndexOf?_le hs.positioned hlast
  have hshort := hs.short
  unfold halfRange at hshort
  unfold wordSize
  omega

/-- A rejection leaves the follower as it is, and the leader probes further down. -/
theorem exists_rejects (hs : s.Sound) (hc : c.Trails s) (h : ¬ c.Meets s) :
    ∃ c', c.Rejects s c' ∧ c'.Trails s ∧ c'.probe s < c.probe s := by
  obtain ⟨q, hq, hprobe, -⟩ := exists_request hs c
  obtain ⟨-, -, -, hpart⟩ := appendRequest_isPartOf hq
  have hprev : termAt c.log.entries q.prevIndex ≠ some q.prevTerm := by
    rw [← hpart.prev, hprobe]
    exact h
  -- at position 0 the logs would agree
  have hpos : 0 < q.prevIndex := by
    refine Nat.pos_of_ne_zero fun hzero => h ?_
    unfold Meets
    rw [← hprobe, hzero]
    rfl
  have hroom : LogStore.lastIndex c.log + 1 < wordSize := by
    have hshort : c.log.lastIndex < halfRange := hc.short
    show c.log.lastIndex + 1 < wordSize
    unfold halfRange at hshort
    unfold wordSize
    omega
  obtain ⟨hint, hhint⟩ := exists_conflictHint_of_lt hroom q.prevIndex
  obtain ⟨next, hnext, hle⟩ := exists_next hs hint hpos
  rw [← Log.prevTerm?_eq] at hprev
  refine ⟨{ c with next }, rejects_iff.2 ⟨q, hint, next, hq, hprev, hhint, hnext, rfl⟩,
    ⟨hc.matching, hc.shared, hc.short, hc.faults⟩, ?_⟩
  rw [← hprobe]
  show min (next - 1) s.log.lastIndex < q.prevIndex
  omega

/-! ## Acceptance -/

/-- A follower that has the leader's term at the position of a request takes it over. -/
theorem exists_merge {q : AppendRequest} (hs : s.Sound) (hc : c.Trails s)
    (hpart : q.IsPartOf s.log.entries)
    (hprev : termAt c.log.entries q.prevIndex = some q.prevTerm) :
    ∃ l, (LogStore.merge q.prevIndex q.prevTerm q.entries c.commit).run c.log = .ok (some q.last) l
      ∧ Caught q s.log.entries c.log l := by
  have hlast : q.last < wordSize := by
    have hle := last_le_length_of_isPartOf hpart
    have hshort := hs.short
    unfold halfRange Log.lastIndex at hshort
    unfold wordSize
    omega
  obtain ⟨r, l, hrun, rfl, hcaught⟩ :=
    (merge_catches hpart hc.matching hs.positioned hprev hc.shared hlast hc.faults).exists_ok
  exact ⟨l, hrun, hcaught⟩

/-- What a follower commits with a request is shared, as the request is. -/
theorem shared_of_caught {q : AppendRequest} {l : Log} {commit : Nat} (hc : c.Trails s)
    (h : Caught q s.log.entries c.log l) :
    l.entries.take ((Replication.newCommit? c.commit q.last commit).getD c.commit)
      <+: s.log.entries := by
  unfold Replication.newCommit?
  split
  · -- what is newly committed the request covers; what was committed before is shared
    have hle : min commit q.last ≤ q.last := Nat.min_le_right _ _
    have htake := congrArg (List.take (min commit q.last)) h.take_eq
    rw [List.take_take, List.take_take, Nat.min_eq_left hle] at htake
    show l.entries.take (min commit q.last) <+: s.log.entries
    rw [htake]
    exact List.take_prefix _ _
  · show l.entries.take c.commit <+: s.log.entries
    rcases h.cases with hsame | htake
    · rw [hsame]
      exact hc.shared
    · rw [htake]
      exact (List.take_prefix _ _).trans (List.take_prefix _ _)

theorem trails_of_caught {q : AppendRequest} {l : Log} {commit next : Nat} (hs : s.Sound)
    (hc : c.Trails s) (h : Caught q s.log.entries c.log l) :
    Trails s ⟨l, (Replication.newCommit? c.commit q.last commit).getD c.commit, next⟩ where
  matching := by
    rcases h.cases with hsame | htake
    · show Matching l.entries s.log.entries
      rw [hsame]
      exact hc.matching
    · refine matching_of_isPrefix ?_
      show l.entries <+: s.log.entries
      rw [htake]
      exact List.take_prefix _ _
  shared := shared_of_caught hc h
  short := by
    have hc' := hc.short
    have hs' := hs.short
    unfold Log.lastIndex at hc' hs' ⊢
    rcases h.cases with hsame | htake
    · show l.entries.length < halfRange
      rwa [hsame]
    · show l.entries.length < halfRange
      rw [htake, List.length_take]
      omega
  faults := h.faults.trans hc.faults

/-- An acceptance brings the follower in line up to the match index, where the leader goes on. -/
theorem round_accepted (hs : s.Sound) (hc : c.Trails s) (h : c.Meets s) :
    ∃ c' m, c.round s = .ok (c', some m) ∧ c'.Trails s ∧ c'.probe s = m ∧ c'.Meets s
      ∧ min s.log.lastIndex (c.probe s + 1) ≤ m ∧ m ≤ s.log.lastIndex
      ∧ c'.log.entries.take m = s.log.entries.take m := by
  obtain ⟨q, hq, hprobe, hfar⟩ := exists_request hs c
  obtain ⟨-, -, -, hpart⟩ := appendRequest_isPartOf hq
  have hprev : termAt c.log.entries q.prevIndex = some q.prevTerm := by
    rw [← hpart.prev, hprobe]
    exact h
  obtain ⟨l, hmerge, hcaught⟩ := exists_merge hs hc hpart hprev
  have hle : q.last ≤ s.log.lastIndex := last_le_length_of_isPartOf hpart
  have hroom : q.last + 1 < wordSize := by
    have hshort := hs.short
    unfold halfRange at hshort
    unfold wordSize
    omega
  have hnext : min (max c.next (q.last + 1) - 1) s.log.lastIndex = q.last := by
    rw [hprobe] at hfar
    unfold probe position at hfar
    omega
  refine ⟨⟨l, (Replication.newCommit? c.commit q.last q.commit).getD c.commit,
    max c.next (q.last + 1)⟩, q.last, round_of_match hq hmerge hroom,
    trails_of_caught hs hc hcaught, hnext, ?_, ?_, hle, hcaught.take_eq⟩
  · unfold Meets
    have hsame : probe s ⟨l, (Replication.newCommit? c.commit q.last q.commit).getD c.commit,
        max c.next (q.last + 1)⟩ = q.last := hnext
    rw [hsame, ← termAt_take (Nat.le_refl q.last), hcaught.take_eq, termAt_take (Nat.le_refl _)]
  · rwa [← hprobe]

/-! ## All rounds -/

/-- From a position where the logs agree on, every round brings the follower further. -/
theorem climb (hs : s.Sound) (hc : c.Trails s) (h : c.Meets s) :
    ∃ n caught done, n ≤ s.log.lastIndex - c.probe s ∧ c.rounds s n = .ok caught
      ∧ caught.round s = .ok (done, some s.log.lastIndex)
      ∧ done.log.entries.take s.log.lastIndex = s.log.entries := by
  induction hgap : s.log.lastIndex - c.probe s using Nat.strongRecOn generalizing c with
  | ind gap ih =>
    obtain ⟨c', m, hround, hc', hprobe, hmeets, hfar, hle, htake⟩ := round_accepted hs hc h
    by_cases hm : m = s.log.lastIndex
    · subst hm
      refine ⟨0, c, c', Nat.zero_le _, rfl, hround, ?_⟩
      rw [htake]
      exact List.take_length
    · obtain ⟨n, caught, done, hn, hrounds, hlast, hdone⟩ := ih _ (by omega) hc' hmeets rfl
      refine ⟨n + 1, caught, done, by omega, ?_, hlast, hdone⟩
      rw [rounds, hround]
      exact hrounds

/-- After finitely many rejections the leader probes where the logs agree. -/
theorem descend (hs : s.Sound) (hc : c.Trails s) :
    ∃ n c', n ≤ c.probe s ∧ c.rounds s n = .ok c' ∧ c'.Trails s ∧ c'.Meets s := by
  obtain ⟨n, c', hn, hrejections, hc', hmeets⟩ := exists_rejections (I := (Trails s ·))
    (M := (Meets s ·)) (probe s) (fun _ => exists_rejects hs) hc
  exact ⟨n, c', hn, hrejections.rounds_eq, hc', hmeets⟩

end Pursuit

/-- **Catch-up converges.** From wherever the leader starts, a bounded number of rounds, none of
which fails, ends in an answer that reports the leader's last index; the follower's log then begins
with the leader's. -/
theorem catch_up_converges (s : Supplier Log) (c : Pursuit Log) (hs : s.Sound) (hc : c.Trails s) :
    ∃ n caught done, n ≤ 2 * s.log.lastIndex ∧ c.rounds s n = .ok caught
      ∧ caught.round s = .ok (done, some s.log.lastIndex)
      ∧ done.log.entries.take s.log.lastIndex = s.log.entries := by
  obtain ⟨m, c', hm, hdown, hc', hmeets⟩ := Pursuit.descend hs hc
  obtain ⟨n, caught, done, hn, hup, hlast, hdone⟩ := Pursuit.climb hs hc' hmeets
  have hprobe : c.probe s ≤ s.log.lastIndex := Nat.min_le_right _ _
  refine ⟨m + n, caught, done, by omega, ?_, hlast, hdone⟩
  rw [Pursuit.rounds_add, hdown]
  exact hup

/-- A leader in term 5 that sends two entries at a time. -/
def elected : Supplier Log where
  log := { entries := [.noop 1 1, .noop 2 1, .noop 3 4, .ofCommand 4 4 ⟨"a", 1, [7]⟩, .noop 5 5] }
  leader := 1
  peer := 2
  term := 5
  commit := 3
  limit := 2

/-- A follower that was a leader itself, in terms of which the new leader knows nothing. -/
def deposed : Pursuit Log where
  log := { entries := [.noop 1 1, .noop 2 1, .noop 3 2, .noop 4 2, .noop 5 3, .noop 6 3] }
  commit := 1
  next := 9

theorem catch_up_converges_of_deposed :
    ¬ deposed.log.entries.take elected.log.lastIndex = elected.log.entries
      ∧ ∃ n caught done, n ≤ 2 * elected.log.lastIndex ∧ deposed.rounds elected n = .ok caught
        ∧ caught.round elected = .ok (done, some elected.log.lastIndex)
        ∧ done.log.entries.take elected.log.lastIndex = elected.log.entries :=
  ⟨by decide, catch_up_converges elected deposed ⟨by decide, by decide, by decide, rfl⟩
    ⟨by decide, by decide, by decide, rfl⟩⟩

end Raft
