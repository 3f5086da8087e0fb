import Raft.Proofs.Protocol.Completeness

/-!
# The record grows

Nothing that the record shows is ever lost. `Grows` is the part of this that goes over any number
of steps; `Evolves p` adds that a step of the node `p` says nothing new about the other nodes, so
that what held of them holds on.
-/

namespace Raft.Protocol

/-- What one record shows, a later one shows as well. What a node was found to hold in the terms
below one in which it voted does not change any more. -/
structure Record.Grows (r r' : Record) : Prop where
  asked : ∀ q, r.asked q → r'.asked q
  ballot : ∀ v t x, r.ballot v t x → r'.ballot v t x
  offered : ∀ q, r.offered q → r'.offered q
  held_le : ∀ v t, r.held v t ≤ r'.held v t
  frozen : ∀ v t x u, r.ballot v t x → u < t → r'.held v u = r.held v u
  ledger : ∀ t, r.ledger t <+: r'.ledger t
  leader : ∀ t x, r.leader t = some x → r'.leader t = some x

/-- The record grows by what one node did. -/
structure Record.Evolves (p : NodeId) (r r' : Record) : Prop extends Record.Grows r r' where
  asked_new : ∀ q, r'.asked q → r.asked q ∨ q.candidate = p
  ballot_new : ∀ v t x, r'.ballot v t x → r.ballot v t x ∨ v = p
  held_eq : ∀ v t, v ≠ p → r'.held v t = r.held v t
  leader_new : ∀ t x, r'.leader t = some x → r.leader t = some x ∨ x = p
  ledger_eq : ∀ t x, r.leader t = some x → x ≠ p → r'.ledger t = r.ledger t

namespace Record

variable {members : List NodeId} {r r' r'' : Record} {l l' : List Entry} {t u w i k m : Nat}

theorem Grows.refl (r : Record) : r.Grows r where
  asked _ h := h
  ballot _ _ _ h := h
  offered _ h := h
  held_le _ _ := Nat.le_refl _
  frozen _ _ _ _ _ _ := rfl
  ledger _ := List.prefix_rfl
  leader _ _ h := h

theorem Grows.trans (g : r.Grows r') (g' : r'.Grows r'') : r.Grows r'' where
  asked q h := g'.asked q (g.asked q h)
  ballot v t x h := g'.ballot v t x (g.ballot v t x h)
  offered q h := g'.offered q (g.offered q h)
  held_le v t := Nat.le_trans (g.held_le v t) (g'.held_le v t)
  frozen v t x u h hu := by rw [g'.frozen v t x u (g.ballot v t x h) hu, g.frozen v t x u h hu]
  ledger t := (g.ledger t).trans (g'.ledger t)
  leader t x h := g'.leader t x (g.leader t x h)

theorem Evolves.refl (p : NodeId) (r : Record) : r.Evolves p r where
  toGrows := Grows.refl r
  asked_new _ h := Or.inl h
  ballot_new _ _ _ h := Or.inl h
  held_eq _ _ _ := rfl
  leader_new _ _ h := Or.inl h
  ledger_eq _ _ _ _ := rfl

namespace Grows

variable (g : r.Grows r')
include g

theorem leader_ne_none (h : r.leader t ≠ none) : r'.leader t ≠ none := by
  obtain ⟨x, hx⟩ := Option.ne_none_iff_exists'.1 h
  rw [g.leader t x hx]
  simp

theorem take_eq (hm : m ≤ (r.ledger t).length) : (r'.ledger t).take m = (r.ledger t).take m :=
  take_eq_of_isPrefix (g.ledger t) hm

theorem covers (h : r.Covers l) : r'.Covers l :=
  fun i e he => ⟨(h i e he).1, (h i e he).2.trans (g.ledger _)⟩

/-- A leader that lacks entries of an earlier term never gets them. -/
theorem missed (hr : r.Sound members) (hm : m ≤ (r.ledger t).length) (huw : u ≤ w)
    (h : r.Missed t m u) : r'.Missed t m w := by
  obtain ⟨t', h1, h2, h3, h4⟩ := h
  refine ⟨t', h1, by omega, g.leader_ne_none h3, fun hpre => ?_⟩
  rw [g.take_eq hm] at hpre
  rcases Nat.le_total ((r.ledger t).take m).length (r.ledger t').length with hle | hle
  · exact h4 (List.prefix_of_prefix_length_le hpre (g.ledger t') hle)
  · -- the later leader's own entry would be among those of the earlier term
    have hle' := List.prefix_of_prefix_length_le (g.ledger t') hpre hle
    obtain ⟨e, he, het⟩ := (hr.term t').opened h3
    have := (hr.term t).bounded e (List.mem_of_mem_take (hle'.mem he))
    omega

theorem kept (hr : r.Sound members) (hm : m ≤ (r.ledger t).length) (hl : l <+: l')
    (huw : u ≤ w) (h : r.Kept t m l u) : r'.Kept t m l' w := by
  rcases h with hpre | hmissed
  · left
    rw [g.take_eq hm]
    exact hpre.trans hl
  · exact Or.inr (g.missed hr hm huw hmissed)

theorem supports {v : NodeId} (hr : r.Sound members)
    (hheld : ∀ t, t < i → r'.held v t = r.held v t) (hl : l <+: l') (huw : u ≤ w)
    (h : r.Supports v i l u) : r'.Supports v i l' w := by
  intro t m ht hm hterm
  rw [hheld t ht] at hm
  have hlen := Nat.le_trans hm (hr.held_le v t)
  refine g.kept hr hlen hl huw (h t m ht hm ?_)
  rw [← termAt_take (Nat.le_refl m)] at hterm ⊢
  rwa [g.take_eq hlen] at hterm

theorem committed (h : r.Committed members t k) : r'.Committed members t k := by
  obtain ⟨hk, hterm, Q, hQ, hheld⟩ := h
  exact ⟨hk, termAt_of_isPrefix (g.ledger t) hterm, Q, hQ,
    fun v hv => Nat.le_trans (hheld v hv) (g.held_le v t)⟩

theorem settled (hl : l <+: l') (huw : u ≤ w) (h : r.Settled members u l i) :
    r'.Settled members w l' i := by
  rcases h with rfl | ⟨t, k, ht, hc, hik, hpre⟩
  · exact Or.inl rfl
  · refine Or.inr ⟨t, k, by omega, g.committed hc, hik, ?_⟩
    have := le_length_of_termAt hc.2.1
    rw [g.take_eq (by omega)]
    exact hpre.trans hl

theorem mandate (hr : r.Sound members) {x : NodeId} (h : r.leader t = some x) :
    ∃ Q, Quorum members Q ∧
      ∀ v ∈ Q, r'.ballot v t x ∧ r'.Supports v t (r'.ledger t) t := by
  obtain ⟨Q, hQ, hmandate⟩ := hr.mandate t x h
  refine ⟨Q, hQ, fun v hv => ?_⟩
  obtain ⟨hballot, hsupports⟩ := hmandate v hv
  exact ⟨g.ballot v t x hballot, g.supports hr (fun u hu => g.frozen v t x u hballot hu)
    (g.ledger t) (Nat.le_refl _) hsupports⟩

theorem offers (hr : r.Sound members) {q : AppendRequest} (h : r.offered q) :
    r'.leader q.term ≠ none ∧ q.IsPartOf (r'.ledger q.term)
      ∧ r'.Settled members q.term (r'.ledger q.term) q.commit := by
  obtain ⟨hleader, hpart, hsettled⟩ := hr.offers q h
  obtain ⟨rest, hrest⟩ := g.ledger q.term
  refine ⟨g.leader_ne_none hleader, ⟨termAt_of_isPrefix (g.ledger _) hpart.prev, ?_⟩,
    g.settled (g.ledger _) (Nat.le_refl _) hsettled⟩
  have hlen := le_length_of_termAt hpart.prev
  rw [← hrest, List.drop_append_of_le_length hlen]
  exact hpart.entries.trans (List.prefix_append _ _)

/-- What the record says about a term stays, unless its leader went on. -/
theorem termSound (hledger : r'.ledger t = r.ledger t) (hleader : r'.leader t = r.leader t)
    (h : r.TermSound t) : r'.TermSound t where
  vacant := by
    rw [hledger, hleader]
    exact h.vacant
  opened := by
    rw [hledger, hleader]
    exact h.opened
  covers := by
    rw [hledger]
    exact g.covers h.covers
  bounded := by
    rw [hledger]
    exact h.bounded
  rising := by
    rw [hledger]
    exact h.rising
  distinct := by
    rw [hledger]
    exact h.distinct

end Grows

end Record

variable {members : List NodeId} {r r' : Record} {p q : NodeId} {c : Core}

/-- What the record said about a node still holds after a step of another node, if a vote that the
other node gave it is right. -/
theorem Core.Sound.evolve (h : c.Sound members r q) (hr : r.Sound members)
    (g : r.Evolves p r') (hqp : q ≠ p) (hbacked : ∀ t, r'.ballot p t q → t ≤ c.hard.term)
    (hvote : ∀ votes, c.phase = .candidate votes → r'.ballot p c.hard.term q →
      r.ballot p c.hard.term q ∨ r'.Supports p c.hard.term c.log (c.hard.term + 1)) :
    c.Sound members r' q where
  copied := by
    obtain ⟨t, ht, hpre⟩ := h.copied
    exact ⟨t, ht, hpre.trans (g.ledger t)⟩
  cast t x hb := h.cast t x ((g.ballot_new q t x hb).resolve_right hqp)
  vote v hv := ⟨(h.vote v hv).1, g.ballot _ _ _ (h.vote v hv).2⟩
  backed t v hb := by
    rcases g.ballot_new v t q hb with hold | rfl
    · exact h.backed t v hold
    · exact hbacked t hb
  backing votes v hphase hb := by
    -- a vote of before supports the candidate, and still does
    have hold : r.ballot v c.hard.term q →
        r'.Supports v c.hard.term c.log (c.hard.term + 1) := fun hb =>
      g.supports hr (fun u hu => g.frozen v _ q u hb hu) List.prefix_rfl (Nat.le_refl _)
        (h.backing votes v hphase hb)
    rcases g.ballot_new v _ q hb with hb | rfl
    · exact hold hb
    · exact (hvote votes hphase hb).elim hold id
  asked x hx hcand := h.asked x ((g.asked_new x hx).resolve_right (by rw [hcand]; exact hqp)) hcand
  votes votes hphase := by
    obtain ⟨hnodup, hsub, hb⟩ := h.votes votes hphase
    exact ⟨hnodup, hsub, fun v hv => g.ballot _ _ _ (hb v hv)⟩
  led t ht := h.led t ((g.leader_new t q ht).resolve_right hqp)
  leading hphase := by
    obtain ⟨hleader, hledger, hheld⟩ := h.leading hphase
    exact ⟨g.leader _ _ hleader, by rw [g.ledger_eq _ _ hleader hqp, hledger],
      by rw [g.held_eq _ _ hqp, hheld]⟩
  kept t m hm := by
    rw [g.held_eq _ _ hqp] at hm
    exact g.kept hr (Nat.le_trans hm (hr.held_le q t)) List.prefix_rfl (Nat.le_refl _)
      (h.kept t m hm)
  held t ht := by
    rw [g.held_eq _ _ hqp] at ht
    exact h.held t ht
  settled := g.settled List.prefix_rfl (Nat.le_refl _) h.settled

end Raft.Protocol
