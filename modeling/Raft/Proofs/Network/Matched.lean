import Raft.Proofs.Network.Safety

/-!
# What a leader knows of its peers

A leader counts a peer for every index up to the peer's match index. Confirmations come late, twice
or in another order, and requests that were given up still arrive; yet no peer ever holds less of
the leader's log than it is counted for, as long as it has not left the leader's term.

* `Network.term` and `Network.matchIndex?` read a member's term and a leader's match index.
* `Sound.take_isPrefix`: a member holds what it was found to hold.
* `match_index_sound`: match indexes are sound.
-/

namespace Raft.Network

open Protocol (Core Record)

variable {members : List NodeId} {n : Network} {r : Record} {p q : NodeId} {t m : Nat}

/-- The term of a member: the one in memory, or what it stored if no server is there. -/
def term (n : Network) (p : NodeId) : Nat :=
  match n.site p with
  | .up s => s.node.term
  | .down x => (x.stored.getD {}).term

/-- The match index that a leader has for a peer. -/
def matchIndex? (n : Network) (p q : NodeId) : Option Nat :=
  match n.site p with
  | .up s => s.node.leader?.bind fun l => l.matched.lookup q
  | .down _ => none

namespace Sound

variable (h : Sound members n r)
include h

theorem core_term_le (p : NodeId) : (n.site p).core.hard.term ≤ n.term p := by
  unfold term
  cases hsite : n.site p with
  | down x => exact Nat.le_refl _
  | up s =>
    cases hrun : s.isRunning with
    | true =>
      rw [Site.core_up hrun]
      exact Nat.le_refl _
    | false =>
      rw [Site.core_ended hrun]
      exact (h.rests hsite).term_le

/-- A member holds what it was found to hold of the log of its term's leader. -/
theorem take_isPrefix (hterm : n.term q ≤ t) (hm : m ≤ r.held q t) :
    (r.ledger t).take m <+: (n.log q).entries := by
  have hkept := (h.core q).kept t m hm
  rw [core_log] at hkept
  rcases hkept with hpre | ⟨u, htu, hu, -, -⟩
  · exact hpre
  · -- a later leader that lacks these entries would be of a term the member has not reached
    have := h.core_term_le q
    omega

/-- A leader counts a peer for no more than the peer was found to hold. -/
theorem le_held_of_matchIndex? (hl : n.Leads p t) (hm : n.matchIndex? p q = some m) :
    m ≤ r.held q t := by
  obtain ⟨s, hs, hrun, hqueue, hkind, rfl⟩ := hl
  unfold matchIndex? at hm
  rw [hs] at hm
  obtain ⟨l, hleader, hlookup⟩ := Option.bind_eq_some_iff.1 hm
  have hstance := Node.stance_of_leader (Node.role_of_leader? hleader)
  have htallied := (h.placed hs hrun).fits.tallied l.matched hstance (by
    show s.node.queue.any _ = false
    rw [hqueue]
    rfl)
  have hle := htallied.lookup_le (q := q)
  rwa [hlookup] at hle

end Sound

/-- **Match indexes are sound.** What a leader counts a peer for is in the leader's log, and a peer
that is in the leader's term holds the same entries up to there. -/
theorem match_index_sound (cluster : List Member) (whole : NodeId → Bool) (acts : List Act)
    {p q : NodeId} {t m : Nat} (hl : (run cluster whole acts).Leads p t)
    (hm : (run cluster whole acts).matchIndex? p q = some m) :
    m ≤ ((run cluster whole acts).log p).lastIndex
      ∧ ((run cluster whole acts).term q = t → ∀ i, 1 ≤ i → i ≤ m →
        ∃ e, ((run cluster whole acts).log p).get? i = some e
          ∧ ((run cluster whole acts).log q).get? i = some e) := by
  obtain ⟨r, -, h, -, -⟩ := exists_sound cluster whole acts []
  have hheld := h.le_held_of_matchIndex? hl hm
  have hledger := (h.leader_of_leads hl).2
  have hlen : m ≤ ((run cluster whole acts).log p).entries.length := by
    rw [← hledger]
    exact Nat.le_trans hheld (h.protocol.record.held_le q t)
  refine ⟨hlen, fun hterm i hi him => ?_⟩
  have hpre := h.take_isPrefix (Nat.le_of_eq hterm) hheld
  rw [hledger] at hpre
  obtain ⟨e, he⟩ := exists_entryAt hi (Nat.le_trans him hlen)
  exact ⟨e, he, entryAt_of_isPrefix hpre (by rwa [entryAt_take him])⟩

theorem match_index_sound_of_trio :
    (run trio strict (electFirst ++ commitFirst)).Leads 1 1
      ∧ (run trio strict (electFirst ++ commitFirst)).matchIndex? 1 2 = some 1
      ∧ (run trio strict (electFirst ++ commitFirst)).term 2 = 1
      ∧ ∃ e, ((run trio strict (electFirst ++ commitFirst)).log 1).get? 1 = some e
        ∧ ((run trio strict (electFirst ++ commitFirst)).log 2).get? 1 = some e := by
  have hl : (run trio strict (electFirst ++ commitFirst)).Leads 1 1 := of_decide_eq_true (by cbv)
  have hm : (run trio strict (electFirst ++ commitFirst)).matchIndex? 1 2 = some 1 := by cbv
  have hterm : (run trio strict (electFirst ++ commitFirst)).term 2 = 1 := by cbv
  exact ⟨hl, hm, hterm, (match_index_sound trio strict (electFirst ++ commitFirst) hl hm).2 hterm 1
    (by decide) (by decide)⟩

end Raft.Network
