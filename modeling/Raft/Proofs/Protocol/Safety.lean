import Raft.Proofs.Protocol.Steps

/-!
# Safety of the protocol

The steps of leaders, and with them the invariant of every step. An election is won by a quorum that
no other leader of the term can have had, and what a leader writes extends the log of its term.
-/

namespace Raft.Protocol

variable {members : List NodeId} {cores : NodeId → Core} {r r' : Record} {p q : NodeId}
  {c c' : Core} {l : List Entry} {t u i m : Nat} {e : Entry}

/-! ## Leaders -/

/-- What a step that gives a leader a longer log has to show. -/
structure Extends (members : List NodeId) (r : Record) (p : NodeId) (c : Core) (e : Entry) : Prop where
  index : e.index = c.log.length + 1
  term : e.term = c.hard.term
  fresh : ∀ x ∈ c.log, ¬ x.SameRequest e
  /-- The term has no other leader. -/
  leader : r.leader c.hard.term = none ∨ r.leader c.hard.term = some p
  ledger : r.ledger c.hard.term <+: c.log
  held : r.held p c.hard.term ≤ c.log.length
  /-- The node was elected. -/
  mandate : ∃ Q, Quorum members Q ∧
    ∀ v ∈ Q, r.ballot v c.hard.term p ∧ r.Supports v c.hard.term c.log c.hard.term

theorem Record.lead_ledger (r : Record) : (r.lead p t l).ledger t = l := Function.update_self _ _ _

theorem Record.lead_leader (r : Record) : (r.lead p t l).leader t = some p :=
  Function.update_self _ _ _

theorem Record.lead_ledger_of_ne (r : Record) (h : u ≠ t) :
    (r.lead p t l).ledger u = r.ledger u := Function.update_of_ne h _ _

theorem Record.lead_leader_of_ne (r : Record) (h : u ≠ t) :
    (r.lead p t l).leader u = r.leader u := Function.update_of_ne h _ _

theorem Record.lead_held (r : Record) : (r.lead p t l).held p t = l.length := if_pos ⟨rfl, rfl⟩

theorem Record.lead_held_of_ne (r : Record) (h : ¬ (q = p ∧ u = t)) :
    (r.lead p t l).held q u = r.held q u := if_neg h

/-- A term that the node leads was its own before, if it had a leader. -/
theorem Extends.eq_of_leader {x : NodeId} (hx : Extends members r p c e)
    (h : r.leader c.hard.term = some x) : x = p := by
  rcases hx.leader with hnone | hsome
  · rw [hnone] at h
    cases h
  · exact Option.some.inj (h.symm.trans hsome)

theorem Record.evolves_lead (h : c.Sound members r p) (hx : Extends members r p c e) :
    r.Evolves p (r.lead p c.hard.term (c.log ++ [e])) where
  asked _ h := h
  ballot _ _ _ h := h
  offered _ h := h
  held_le v u := by
    by_cases hc : v = p ∧ u = c.hard.term
    · obtain ⟨rfl, rfl⟩ := hc
      rw [Record.lead_held, List.length_append]
      exact Nat.le_trans hx.held (Nat.le_add_right _ _)
    · exact Nat.le_of_eq (r.lead_held_of_ne hc).symm
  frozen v t x u hb hu := by
    -- the node voted in no term after its own
    refine r.lead_held_of_ne ?_
    rintro ⟨rfl, rfl⟩
    have := (h.cast t x hb).1
    omega
  ledger u := by
    rcases eq_or_ne u c.hard.term with rfl | hne
    · rw [Record.lead_ledger]
      exact hx.ledger.trans (List.prefix_append _ _)
    · exact isPrefix_of_eq (r.lead_ledger_of_ne hne).symm
  leader u x hu := by
    rcases eq_or_ne u c.hard.term with rfl | hne
    · rw [Record.lead_leader, hx.eq_of_leader hu]
    · rwa [Record.lead_leader_of_ne r hne]
  asked_new _ h := Or.inl h
  ballot_new _ _ _ h := Or.inl h
  held_eq v u hv := r.lead_held_of_ne fun hc => hv hc.1
  leader_new u x hu := by
    rcases eq_or_ne u c.hard.term with rfl | hne
    · rw [Record.lead_leader] at hu
      exact Or.inr (Option.some.inj hu).symm
    · rw [Record.lead_leader_of_ne r hne] at hu
      exact Or.inl hu
  ledger_eq u x hu hxp := by
    refine r.lead_ledger_of_ne ?_
    rintro rfl
    exact hxp (hx.eq_of_leader hu)

/-- The longer log of a leader is as good as the log it had. -/
theorem Core.Sound.termSound_lead (h : c.Sound members r p) (hr : r.Sound members)
    (hx : Extends members r p c e) :
    (r.lead p c.hard.term (c.log ++ [e])).TermSound c.hard.term := by
  have g := (Record.evolves_lead h hx).toGrows
  have hcovers := g.covers (h.covers hr)
  have hpre : c.log <+: r.ledger (lastTerm c.log) := (h.covers hr).prefix_ledger
  refine ⟨?_, ?_, ?_, ?_, ?_, ?_⟩
  · rw [Record.lead_leader]
    nofun
  · rw [Record.lead_ledger]
    exact fun _ => ⟨e, by simp, hx.term⟩
  · rw [Record.lead_ledger]
    intro j y hy
    -- an old entry is covered as before, and the new one is covered by the log itself
    rcases entryAt_append_singleton hy with hold | ⟨rfl, rfl⟩
    · obtain ⟨hj, hle⟩ := hcovers j y hold
      refine ⟨hj, ?_⟩
      rwa [List.take_append_of_le_length (le_length_of_entryAt hold).2]
    · refine ⟨hx.index, ?_⟩
      rw [hx.term, Record.lead_ledger]
      exact List.take_prefix _ _
  · rw [Record.lead_ledger]
    intro y hy
    rcases List.mem_append.1 hy with hy | hy
    · exact h.bounded hr y hy
    · exact Nat.le_of_eq (by rw [List.mem_singleton.1 hy, hx.term])
  · rw [Record.lead_ledger, List.pairwise_append]
    refine ⟨hr.rising_of_covers (h.covers hr), List.pairwise_singleton _ _, ?_⟩
    intro a ha b hb
    rw [List.mem_singleton.1 hb, hx.term]
    exact h.bounded hr a ha
  · rw [Record.lead_ledger, List.pairwise_append]
    refine ⟨(hr.term _).distinct.sublist hpre.sublist, List.pairwise_singleton _ _, ?_⟩
    intro a ha b hb
    rw [List.mem_singleton.1 hb]
    exact hx.fresh a ha

theorem Core.Sound.record_lead (h : c.Sound members r p) (hr : r.Sound members)
    (hx : Extends members r p c e) : (r.lead p c.hard.term (c.log ++ [e])).Sound members := by
  have g := (Record.evolves_lead h hx).toGrows
  exact
    { once := hr.once
      mandate := by
        intro u x hu
        -- the quorum that elected the node also answers for the longer log
        rcases eq_or_ne u c.hard.term with rfl | hne
        · rw [Record.lead_leader] at hu
          obtain rfl := Option.some.inj hu
          obtain ⟨Q, hQ, hmandate⟩ := hx.mandate
          refine ⟨Q, hQ, fun v hv => ⟨(hmandate v hv).1, ?_⟩⟩
          rw [Record.lead_ledger]
          exact g.supports hr (fun w hw => g.frozen v _ p w (hmandate v hv).1 hw)
            (List.prefix_append _ _) (Nat.le_refl _) (hmandate v hv).2
        · rw [Record.lead_leader_of_ne r hne] at hu
          exact g.mandate hr hu
      term := by
        intro u
        rcases eq_or_ne u c.hard.term with rfl | hne
        · exact h.termSound_lead hr hx
        · exact g.termSound (Record.lead_ledger_of_ne r hne) (Record.lead_leader_of_ne r hne)
            (hr.term u)
      offers := fun y hy => g.offers hr hy
      held_le := by
        intro v u
        by_cases hc : v = p ∧ u = c.hard.term
        · exact Nat.le_of_eq (by rw [hc.1, hc.2, Record.lead_ledger, Record.lead_held])
        · rw [Record.lead_held_of_ne r hc]
          exact Nat.le_trans (hr.held_le v u) (g.ledger u).length_le }

theorem Core.Sound.lead (h : c.Sound members r p) (hr : r.Sound members)
    (hx : Extends members r p c e) :
    Core.Sound members (r.lead p c.hard.term (c.log ++ [e])) p
      { c with log := c.log ++ [e], phase := .leader } := by
  have g := (Record.evolves_lead h hx).toGrows
  exact
    { copied := ⟨c.hard.term, Nat.le_refl _, isPrefix_of_eq (Record.lead_ledger r).symm⟩
      cast := h.cast
      vote := h.vote
      backed := h.backed
      backing := nofun
      asked := fun x hx hcand => ⟨(h.asked x hx hcand).1, nofun⟩
      votes := nofun
      led := by
        intro u hu
        refine ⟨?_, nofun⟩
        rcases eq_or_ne u c.hard.term with rfl | hne
        · exact Nat.le_refl _
        · rw [Record.lead_leader_of_ne r hne] at hu
          exact (h.led u hu).1
      leading := fun _ => ⟨Record.lead_leader r, Record.lead_ledger r, Record.lead_held r⟩
      kept := by
        intro u m hm
        rcases eq_or_ne u c.hard.term with rfl | hne
        · left
          rw [Record.lead_ledger]
          exact List.take_prefix _ _
        · rw [r.lead_held_of_ne fun hc => hne hc.2] at hm
          exact g.kept hr (Nat.le_trans hm (hr.held_le p u)) (List.prefix_append _ _)
            (Nat.le_refl _) (h.kept u m hm)
      held := by
        intro u hu
        rcases eq_or_ne u c.hard.term with rfl | hne
        · exact Nat.le_refl _
        · rw [r.lead_held_of_ne fun hc => hne hc.2] at hu
          exact h.held u hu
      settled := g.settled (List.prefix_append _ _) (Nat.le_refl _) h.settled }

/-! ## Winning an election -/

/-- **Election safety.** A candidate with a quorum of votes is in a term without a leader: the other
leader's quorum would share a voter with its own, and a node does not stand where it has led. -/
theorem Sound.leader_eq_none (h : Sound members cores r) {votes : List NodeId}
    (hphase : (cores p).phase = .candidate votes)
    (hmajority : majority members.length ≤ votes.length) :
    r.leader (cores p).hard.term = none := by
  by_contra hne
  obtain ⟨x, hx⟩ := Option.ne_none_iff_exists'.1 hne
  obtain ⟨Q, hQ, hmandate⟩ := h.record.mandate _ x hx
  obtain ⟨hnodup, hsub, hballots⟩ := (h.core p).votes votes hphase
  obtain ⟨v, hv, hv'⟩ := hQ.exists_mem_mem ⟨hnodup, hsub, hmajority⟩
  obtain rfl : x = p := h.record.once v _ x p (hmandate v hv).1 (hballots v hv')
  exact ((h.core x).led _ hx).2 rfl votes hphase

/-- A leader that a term does not have lacked nothing. -/
theorem Record.Supports.of_leader_eq_none {v : NodeId} (h : r.Supports v u l (t + 1))
    (ht : r.leader t = none) : r.Supports v u l t := by
  intro w m hw hm hterm
  rcases h w m hw hm hterm with hpre | ⟨t', h1, h2, h3, h4⟩
  · exact Or.inl hpre
  · have hne : t' ≠ t := by
      rintro rfl
      exact h3 ht
    exact Or.inr ⟨t', h1, by omega, h3, h4⟩

theorem Sound.extends_win (h : Sound members cores r) {votes : List NodeId}
    (hphase : (cores p).phase = .candidate votes)
    (hmajority : majority members.length ≤ votes.length) :
    Extends members r p (cores p)
      (.noop ((cores p).log.length + 1) (cores p).hard.term) := by
  have hnone := h.leader_eq_none hphase hmajority
  obtain ⟨hnodup, hsub, hballots⟩ := (h.core p).votes votes hphase
  have hvacant := (h.record.term _).vacant hnone
  exact
    { index := rfl
      term := rfl
      fresh := by
        rintro x - ⟨a, b, -, hb, -⟩
        cases hb
      leader := Or.inl hnone
      ledger := by
        rw [hvacant]
        exact List.nil_prefix
      held := by
        have := h.record.held_le p (cores p).hard.term
        rw [hvacant] at this
        exact Nat.le_trans this (Nat.zero_le _)
      mandate := ⟨votes, ⟨hnodup, hsub, hmajority⟩, fun v hv => ⟨hballots v hv,
        ((h.core p).backing votes v hphase (hballots v hv)).of_leader_eq_none hnone⟩⟩ }

theorem Core.Sound.extends_append (h : c.Sound members r p) (hr : r.Sound members)
    (hphase : c.phase = .leader) (hindex : e.index = c.log.length + 1)
    (hterm : e.term = c.hard.term) (hfresh : ∀ x ∈ c.log, ¬ x.SameRequest e) :
    Extends members r p c e := by
  obtain ⟨hleader, hledger, hheld⟩ := h.leading hphase
  exact
    { index := hindex
      term := hterm
      fresh := hfresh
      leader := Or.inr hleader
      ledger := isPrefix_of_eq hledger
      held := Nat.le_of_eq hheld
      mandate := by
        have := hr.mandate _ p hleader
        rwa [hledger] at this }

theorem Core.Sound.commit (h : c.Sound members r p) (hphase : c.phase = .leader)
    {Q : List NodeId} (hterm : termAt c.log i = some c.hard.term) (hi : 0 < i)
    (hQ : Quorum members Q) (hheld : ∀ v ∈ Q, i ≤ r.held v c.hard.term) :
    Core.Sound members r p { c with commit := i } := by
  obtain ⟨-, hledger, -⟩ := h.leading hphase
  refine { h with settled := Or.inr ⟨c.hard.term, i, Nat.le_refl _, ?_, Nat.le_refl _, ?_⟩ }
  · refine ⟨hi, ?_, Q, hQ, hheld⟩
    rwa [hledger]
  · rw [hledger]
    exact List.take_prefix _ _

/-! ## All steps -/

theorem Step.evolves (h : Sound members cores r) (hs : Step members p (cores p) r c' r') :
    r.Evolves p r' := by
  cases hs with
  | adopt | rest | count | merge | learn | commit => exact Record.Evolves.refl p r
  | stand => exact r.evolves_cast p _ p
  | ask => exact r.evolves_ask rfl
  | grant q => exact r.evolves_cast p _ q.candidate
  | win votes hphase hmajority =>
    exact Record.evolves_lead (h.core p) (h.extends_win hphase hmajority)
  | append e hphase hindex hterm hfresh =>
    exact Record.evolves_lead (h.core p)
      ((h.core p).extends_append h.record hphase hindex hterm hfresh)
  | offer q => exact r.evolves_offer q
  | confirm q _ _ hterm =>
    rw [hterm]
    exact Record.evolves_hold (h.core p)

theorem Step.record (h : Sound members cores r) (hs : Step members p (cores p) r c' r') :
    r'.Sound members := by
  have hc := h.core p
  cases hs with
  | adopt | rest | count | merge | learn | commit => exact h.record
  | stand =>
    refine h.record.cast fun y hy => ?_
    have := (hc.cast _ y hy).1
    omega
  | ask => exact h.record.ask
  | grant q _ _ hterm hfree =>
    refine h.record.cast fun y hy => ?_
    exact hfree _ ((hc.cast _ y hy).2 hterm) rfl
  | win votes hphase hmajority =>
    exact hc.record_lead h.record (h.extends_win hphase hmajority)
  | append e hphase hindex hterm hfresh =>
    exact hc.record_lead h.record (hc.extends_append h.record hphase hindex hterm hfresh)
  | offer q hphase hterm hpart hcommit =>
    exact h.record.offer hc hphase hterm hpart hcommit
  | confirm q _ hq hterm hheld =>
    have g := (Record.evolves_hold (i := q.last) hc).toGrows
    rw [← hterm] at g
    exact h.record.hold g (hc.take_of_heldBy h.record hq hheld).1

theorem Step.core (h : Sound members cores r) (hs : Step members p (cores p) r c' r') :
    c'.Sound members r' p := by
  have hc := h.core p
  have hr := h.record
  cases hs with
  | adopt t ht => exact hc.adopt hr ht
  | rest i hi => exact hc.rest hi
  | stand hp => exact hc.stand hr hp
  | ask => exact hc.ask
  | grant q hphase _ hterm hfree => exact hc.grant hr hphase hterm hfree
  | count votes v hphase hnew hv hballot => exact hc.count hphase hnew hv hballot
  | win votes hphase hmajority => exact hc.lead hr (h.extends_win hphase hmajority)
  | append e hphase hindex hterm hfresh =>
    have := hc.lead hr (hc.extends_append hr hphase hindex hterm hfresh)
    rwa [← hphase] at this
  | offer => exact hc.offer
  | merge q l hphase hq hterm hprev hl => exact hc.merge hr hphase hq hterm hprev hl
  | confirm q hphase hq hterm hheld =>
    have htake := (hc.take_of_heldBy hr hq hheld).2
    rw [hterm] at htake ⊢
    exact hc.confirm hr hphase htake
  | learn q i hphase hq hterm hheld hi => exact hc.learn hr hphase hq hterm hheld hi
  | commit i Q hphase hterm hi hQ hheld => exact hc.commit hphase hterm hi hQ hheld

/-- What is new in the log of a leader was just written. -/
theorem Step.mem_ledger {c : Core} {e : Entry} (h : c.Sound members r p)
    (hs : Step members p c r c' r') (he : e ∈ r'.ledger t) :
    (∃ u, e ∈ r.ledger u) ∨ c'.log = c.log ++ [e] := by
  have hlead : ∀ x, e ∈ (r.lead p c.hard.term (c.log ++ [x])).ledger t →
      (∃ u, e ∈ r.ledger u) ∨ c.log ++ [x] = c.log ++ [e] := by
    intro x hx
    by_cases ht : t = c.hard.term
    · rw [ht, Record.lead_ledger] at hx
      rcases List.mem_append.1 hx with hold | hnew
      · obtain ⟨u, -, hpre⟩ := h.copied
        exact Or.inl ⟨u, hpre.mem hold⟩
      · rw [List.mem_singleton.1 hnew]
        exact Or.inr rfl
    · rw [Record.lead_ledger_of_ne r ht] at hx
      exact Or.inl ⟨t, hx⟩
  cases hs with
  | win => exact hlead _ he
  | append x => exact hlead x he
  | _ => exact Or.inl ⟨t, he⟩

/-- The vote that a step gives is one that the candidate can rely on. -/
theorem Step.vote (h : Sound members cores r) (hs : Step members p (cores p) r c' r')
    (hqp : q ≠ p) (hb : r'.ballot p t q) :
    r.ballot p t q ∨ t ≤ (cores q).hard.term ∧ ∀ votes, (cores q).phase = .candidate votes →
      t = (cores q).hard.term → r'.Supports p t (cores q).log (t + 1) := by
  cases hs with
  | stand =>
    rcases hb with hb | ⟨-, -, hq⟩
    · exact Or.inl hb
    · exact absurd hq hqp
  | grant x hphase hx hterm hfree hrecent =>
    rcases hb with hb | ⟨-, rfl, rfl⟩
    · exact Or.inl hb
    · right
      obtain ⟨hle, hlast⟩ := (h.core x.candidate).asked x hx rfl
      refine ⟨hle, fun votes hcand hxterm => ?_⟩
      obtain ⟨hindex, hlterm⟩ := hlast votes hcand hxterm
      rw [hindex, hlterm] at hrecent
      have hkept := (h.core p).kept
      rw [← hterm] at hkept
      have hle' := (h.core x.candidate).lastTerm_le h.record
      have hsupports : r.Supports p x.term (cores x.candidate).log (x.term + 1) :=
        h.record.supports_of_isRecent hkept ((h.core p).covers h.record)
          ((h.core x.candidate).covers h.record) (by omega) hrecent
      exact (r.evolves_cast p x.term x.candidate).supports h.record (fun _ _ => rfl)
        List.prefix_rfl (Nat.le_refl _) hsupports
  | _ => exact Or.inl hb

/-- **The invariant of the protocol.** Every step keeps it. -/
theorem Step.sound (h : Sound members cores r) (hs : Step members p (cores p) r c' r') :
    Sound members (Function.update cores p c') r' where
  record := hs.record h
  core q := by
    rcases eq_or_ne q p with rfl | hqp
    · rw [Function.update_self]
      exact hs.core h
    · rw [Function.update_of_ne hqp]
      have g := hs.evolves h
      refine (h.core q).evolve h.record g hqp (fun t hb => ?_) (fun votes hphase hb => ?_)
      · rcases hs.vote h hqp hb with hold | ⟨hle, -⟩
        · exact (h.core q).backed t p hold
        · exact hle
      · rcases hs.vote h hqp hb with hold | ⟨-, hsupports⟩
        · exact Or.inl hold
        · exact Or.inr (hsupports votes hphase rfl)

end Raft.Protocol
