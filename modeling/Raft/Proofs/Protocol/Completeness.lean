import Raft.Proofs.Protocol.Sound

/-!
# What follows from the invariant

Two facts carry the safety of the protocol, next to what the merge of a leader's entries leaves: a
leader has every entry that was committed in an earlier term, and a candidate whose log is recent
enough for a voter has what the voter was found to hold.
-/

namespace Raft.Protocol

variable {members : List NodeId} {r : Record} {l l' L : List Entry} {t u w i j k m : Nat}

/-! ## The last term -/

theorem le_lastTerm {e : Entry} (h : l.Pairwise fun a b => a.term ≤ b.term)
    (he : entryAt l i = some e) : e.term ≤ lastTerm l := by
  obtain ⟨hi, hl⟩ := le_length_of_entryAt he
  obtain ⟨x, hx⟩ := exists_entryAt (l := l) (i := l.length) (by omega) (Nat.le_refl _)
  rw [lastTerm_eq_of_entryAt hx]
  rcases Nat.lt_or_ge i l.length with hlt | hge
  · obtain ⟨-, he⟩ := entryAt_eq_some_iff.1 he
    obtain ⟨-, hx⟩ := entryAt_eq_some_iff.1 hx
    obtain ⟨h1, rfl⟩ := List.getElem?_eq_some_iff.1 he
    obtain ⟨h2, rfl⟩ := List.getElem?_eq_some_iff.1 hx
    exact List.pairwise_iff_getElem.1 h _ _ h1 h2 (by omega)
  · obtain rfl : i = l.length := by omega
    rw [he] at hx
    obtain rfl := Option.some.inj hx
    exact Nat.le_refl _

/-- Requests that are distinct stand at one place each. -/
theorem entryAt_inj_of_distinct {a b : Entry} (h : l.Pairwise fun a b => ¬ a.SameRequest b)
    (ha : entryAt l i = some a) (hb : entryAt l j = some b) (hsame : a.SameRequest b) : i = j := by
  obtain ⟨hi, ha⟩ := entryAt_eq_some_iff.1 ha
  obtain ⟨hj, hb⟩ := entryAt_eq_some_iff.1 hb
  obtain ⟨hi', rfl⟩ := List.getElem?_eq_some_iff.1 ha
  obtain ⟨hj', rfl⟩ := List.getElem?_eq_some_iff.1 hb
  have hdistinct := List.pairwise_iff_getElem.1 h
  rcases Nat.lt_trichotomy i j with hlt | heq | hgt
  · exact absurd hsame (hdistinct (i - 1) (j - 1) hi' hj' (by omega))
  · exact heq
  · exact absurd hsame.symm (hdistinct (j - 1) (i - 1) hj' hi' (by omega))

theorem Record.Settled.le_length (hs : r.Settled members u l i) : i ≤ l.length := by
  rcases hs with rfl | ⟨t, k, htu, hc, hik, hpre⟩
  · exact Nat.zero_le _
  · have h1 := le_length_of_termAt hc.2.1
    have h2 := hpre.length_le
    rw [List.length_take] at h2
    omega

/-- What is settled is a part of the log of a leader who committed it. -/
theorem Record.Settled.cases (hs : r.Settled members u l i) :
    i = 0 ∨ ∃ t k, t ≤ u ∧ r.Committed members t k ∧ i ≤ k ∧ l.take i = (r.ledger t).take i := by
  rcases hs with rfl | ⟨t, k, htu, hc, hik, hpre⟩
  · exact Or.inl rfl
  · have hlen : i ≤ ((r.ledger t).take i).length := by
      have := le_length_of_termAt hc.2.1
      rw [List.length_take]
      omega
    have htake := take_eq_of_isPrefix hpre hlen
    rw [List.take_take, Nat.min_self] at htake
    exact Or.inr ⟨t, k, htu, hc, hik, htake⟩

theorem Record.Settled.mem_ledger {e : Entry} (hs : r.Settled members u l i)
    (he : entryAt l j = some e) (hji : j ≤ i) : ∃ t, e ∈ r.ledger t := by
  rcases hs.cases with rfl | ⟨t, k, -, -, -, htake⟩
  · have := (le_length_of_entryAt he).1
    omega
  · refine ⟨t, mem_of_entryAt (i := j) ?_⟩
    rw [← entryAt_congr htake hji]
    exact he

namespace Record.Sound

variable (h : r.Sound members)
include h

theorem rising_of_covers (hl : r.Covers l) : l.Pairwise fun a b => a.term ≤ b.term :=
  (h.term _).rising.sublist hl.prefix_ledger.sublist

theorem leader_ne_none (hi : entryAt (r.ledger t) i ≠ none) : r.leader t ≠ none := by
  intro hnone
  rw [(h.term t).vacant hnone] at hi
  simp [entryAt] at hi

/-! ## Leader completeness -/

/-- **Leader completeness.** What was committed in a term is in the log of every later leader: the
quorums of the commit and of the election share a voter, and no leader between them lacked it. -/
theorem complete (hc : r.Committed members t k) (hu : r.leader u ≠ none) (htu : t < u) :
    (r.ledger t).take k <+: r.ledger u := by
  -- on the later term: a leader in between had the entries, so it is no excuse for lacking them
  induction u using Nat.strongRecOn with
  | _ u ih =>
    obtain ⟨x, hx⟩ := Option.ne_none_iff_exists'.1 hu
    obtain ⟨Q, hQ, hmandate⟩ := h.mandate u x hx
    obtain ⟨-, hterm, Q', hQ', hheld⟩ := hc
    obtain ⟨v, hv, hv'⟩ := hQ.exists_mem_mem hQ'
    rcases (hmandate v hv).2 t k htu (hheld v hv') hterm with hkept | ⟨t', h1, h2, h3, h4⟩
    · exact hkept
    · exact absurd (ih t' h2 h3 h1) h4

theorem leader_of_committed (hc : r.Committed members t k) : r.leader t ≠ none := by
  obtain ⟨hk, hterm, -⟩ := hc
  obtain ⟨e, he, -⟩ := exists_entryAt_of_termAt hterm hk
  exact h.leader_ne_none (by rw [he]; simp)

theorem take_prefix_of_committed (hc : r.Committed members t k) (hu : r.leader u ≠ none)
    (htu : t ≤ u) : (r.ledger t).take k <+: r.ledger u := by
  rcases Nat.lt_or_ge t u with hlt | hge
  · exact h.complete hc hu hlt
  · obtain rfl : t = u := by omega
    exact List.take_prefix k _

/-- What is settled in a log is in the log of every leader of its term or a later one. -/
theorem prefix_of_settled (hs : r.Settled members u l i) (hw : r.leader w ≠ none)
    (huw : u ≤ w) : l.take i <+: r.ledger w := by
  rcases hs.cases with rfl | ⟨t, k, htu, hc, hik, htake⟩
  · simp
  · rw [htake]
    exact (take_prefix_of_le hik).trans (h.take_prefix_of_committed hc hw (by omega))

/-- Two settled parts of logs are in the log of one leader. -/
theorem exists_ledger_of_settled (hs : r.Settled members u l i) (hs' : r.Settled members w l' j)
    (hi : 0 < i) (hj : 0 < j) : ∃ z, l.take i <+: r.ledger z ∧ l'.take j <+: r.ledger z := by
  obtain ⟨t, k, htu, hc, hik, hpre⟩ := hs.resolve_left (by omega)
  obtain ⟨t', k', htw, hc', hjk, hpre'⟩ := hs'.resolve_left (by omega)
  have h1 := h.leader_of_committed hc
  have h2 := h.leader_of_committed hc'
  have hs1 : r.Settled members t l i := Or.inr ⟨t, k, Nat.le_refl _, hc, hik, hpre⟩
  have hs2 : r.Settled members t' l' j := Or.inr ⟨t', k', Nat.le_refl _, hc', hjk, hpre'⟩
  rcases Nat.le_total t t' with hle | hle
  · exact ⟨t', h.prefix_of_settled hs1 h2 hle, h.prefix_of_settled hs2 h2 (Nat.le_refl _)⟩
  · exact ⟨t, h.prefix_of_settled hs1 h1 (Nat.le_refl _), h.prefix_of_settled hs2 h1 hle⟩

/-- Logs that are settled up to an index have the same entries up to it. -/
theorem entryAt_eq_of_settled (hs : r.Settled members u l i) (hs' : r.Settled members w l' j)
    (hki : k ≤ i) (hkj : k ≤ j) : entryAt l k = entryAt l' k := by
  rcases Nat.eq_zero_or_pos k with rfl | hk
  · rfl
  · have hl := hs.le_length
    have hl' := hs'.le_length
    obtain ⟨z, hz, hz'⟩ := h.exists_ledger_of_settled hs hs' (by omega) (by omega)
    obtain ⟨e, he⟩ := exists_entryAt hk (show k ≤ l.length by omega)
    obtain ⟨e', he'⟩ := exists_entryAt hk (show k ≤ l'.length by omega)
    have h1 := entryAt_of_isPrefix hz (by rwa [entryAt_take hki])
    have h2 := entryAt_of_isPrefix hz' (by rwa [entryAt_take hkj])
    rw [he, he', ← h1, ← h2]

/-- **A request is settled at one place.** -/
theorem index_eq_of_settled {a b : Entry} (hs : r.Settled members u l i)
    (hs' : r.Settled members w l' j) (ha : entryAt l i = some a) (hb : entryAt l' j = some b)
    (hsame : a.SameRequest b) : i = j := by
  have hi := (le_length_of_entryAt ha).1
  have hj := (le_length_of_entryAt hb).1
  obtain ⟨z, hz, hz'⟩ := h.exists_ledger_of_settled hs hs' hi hj
  have ha' := entryAt_of_isPrefix hz (by rwa [entryAt_take (Nat.le_refl i)])
  have hb' := entryAt_of_isPrefix hz' (by rwa [entryAt_take (Nat.le_refl j)])
  exact entryAt_inj_of_distinct (h.term z).distinct ha' hb' hsame

/-! ## Votes -/

/-- **The vote.** A candidate whose log is recent enough for a voter has what the voter still
has of what it was found to hold, or a leader between them lacked it. -/
theorem supports_of_isRecent {v : NodeId} (hkept : ∀ t m, m ≤ r.held v t → r.Kept t m l w)
    (hl : r.Covers l) (hl' : r.Covers l') (hlast : lastTerm l' < w)
    (hrecent : Election.isRecent l.length (lastTerm l) l'.length (lastTerm l') = true) :
    r.Supports v u l' w := by
  intro t m _ hm ht
  rcases hkept t m hm with hP | hmissed
  swap
  · exact Or.inr hmissed
  rcases Nat.eq_zero_or_pos m with rfl | hpos
  · exact Or.inl (by simp)
  obtain ⟨e, he, het⟩ := exists_entryAt_of_termAt ht hpos
  have htl : t ≤ lastTerm l := by
    rw [← het]
    have hem : entryAt ((r.ledger t).take m) m = some e := by rwa [entryAt_take (Nat.le_refl _)]
    exact le_lastTerm (h.rising_of_covers hl) (entryAt_of_isPrefix hP hem)
  simp only [Election.isRecent, Bool.or_eq_true, Bool.and_eq_true, decide_eq_true_eq] at hrecent
  rcases hrecent with hlt | ⟨heq, hlen⟩
  · -- the candidate's last term is newer: its leader has the entries, or lacked them
    by_cases hPL : (r.ledger t).take m <+: r.ledger (lastTerm l')
    · left
      rcases Nat.le_total ((r.ledger t).take m).length l'.length with hle | hle
      · exact List.prefix_of_prefix_length_le hPL hl'.prefix_ledger hle
      · -- otherwise the candidate's last entry would be of a term up to `t`
        exfalso
        have hpre := List.prefix_of_prefix_length_le hl'.prefix_ledger hPL hle
        have hne : l' ≠ [] := by
          rintro rfl
          exact Nat.not_lt_zero _ hlt
        obtain ⟨x, hx⟩ := exists_entryAt (List.length_pos_iff.2 hne) (Nat.le_refl _)
        have hmem := List.mem_of_mem_take (hpre.mem (mem_of_entryAt hx))
        have := (h.term t).bounded x hmem
        rw [lastTerm_eq_of_entryAt hx] at hlt
        omega
    · refine Or.inr ⟨lastTerm l', by omega, hlast, fun hnone => ?_, hPL⟩
      have hnil := hl'.prefix_ledger
      rw [(h.term _).vacant hnone, List.prefix_nil] at hnil
      rw [hnil, lastTerm_nil] at hlt
      exact Nat.not_lt_zero _ hlt
  · -- the same last term: both logs are parts of one, and the candidate's is not shorter
    have hpre := hl'.prefix_ledger
    rw [heq] at hpre
    exact Or.inl (hP.trans (List.prefix_of_prefix_length_le hl.prefix_ledger hpre hlen))

end Record.Sound

end Raft.Protocol
