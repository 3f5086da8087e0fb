import Raft.Proofs.Protocol.Growth

/-!
# Every step keeps the invariant

The steps that record something are taken one by one: a vote, a confirmation, and a leader's new
log. `Step.sound` puts them together.
-/

namespace Raft.Protocol

variable {members : List NodeId} {cores : NodeId → Core} {r r' : Record} {p q : NodeId}
  {c c' : Core} {l : List Entry} {t u i m : Nat}

/-! ## Logs of nodes -/

theorem Core.Sound.covers (h : c.Sound members r p) (hr : r.Sound members) : r.Covers c.log := by
  obtain ⟨t, -, hpre⟩ := h.copied
  exact (hr.term t).covers.of_isPrefix hpre

theorem Core.Sound.bounded (h : c.Sound members r p) (hr : r.Sound members) :
    ∀ e ∈ c.log, e.term ≤ c.hard.term := by
  obtain ⟨t, ht, hpre⟩ := h.copied
  intro e he
  have := (hr.term t).bounded e (hpre.mem he)
  omega

theorem Core.Sound.lastTerm_le (h : c.Sound members r p) (hr : r.Sound members) :
    lastTerm c.log ≤ c.hard.term := by
  rcases Nat.eq_zero_or_pos c.log.length with hl | hl
  · rw [List.length_eq_zero_iff.1 hl, lastTerm_nil]
    exact Nat.zero_le _
  · obtain ⟨e, he⟩ := exists_entryAt hl (Nat.le_refl _)
    rw [lastTerm_eq_of_entryAt he]
    exact h.bounded hr e (mem_of_entryAt he)

/-! ## Idle nodes -/

/-- What has to be shown of a node that is neither a candidate nor a leader. -/
theorem Core.Sound.of_idle (hphase : c.phase = .idle)
    (copied : ∃ t, t ≤ c.hard.term ∧ c.log <+: r.ledger t)
    (cast : ∀ t x, r.ballot p t x → t ≤ c.hard.term ∧ (t = c.hard.term → c.hard.vote = some ⟨x, t⟩))
    (vote : ∀ v, c.hard.vote = some v → v.term = c.hard.term ∧ r.ballot p v.term v.candidate)
    (backed : ∀ t v, r.ballot v t p → t ≤ c.hard.term)
    (asked : ∀ q, r.asked q → q.candidate = p → q.term ≤ c.hard.term)
    (led : ∀ t, r.leader t = some p → t ≤ c.hard.term)
    (kept : ∀ t m, m ≤ r.held p t → r.Kept t m c.log (c.hard.term + 1))
    (held : ∀ t, 0 < r.held p t → t ≤ c.hard.term)
    (settled : r.Settled members c.hard.term c.log c.commit) : c.Sound members r p where
  copied := copied
  cast := cast
  vote := vote
  backed := backed
  backing _ _ hc _ := by simp [hphase] at hc
  asked q hq hcand := ⟨asked q hq hcand, fun _ hc _ => by simp [hphase] at hc⟩
  votes _ hc := by simp [hphase] at hc
  led t ht := ⟨led t ht, fun _ _ hc => by simp [hphase] at hc⟩
  leading hc := by simp [hphase] at hc
  kept := kept
  held := held
  settled := settled

theorem Record.Settled.of_le {j : Nat} (h : r.Settled members u l i) (hj : j ≤ i) :
    r.Settled members u l j := by
  rcases h with rfl | ⟨t, k, ht, hc, hik, hpre⟩
  · exact Or.inl (by omega)
  · exact Or.inr ⟨t, k, ht, hc, by omega, (take_prefix_of_le hj).trans hpre⟩

theorem Core.Sound.adopt (h : c.Sound members r p) (hr : r.Sound members) (ht : c.hard.term < t) :
    Core.Sound members r p { c with hard := ⟨t, none⟩, phase := .idle } := by
  have g := Record.Grows.refl r
  refine Core.Sound.of_idle rfl ?_ (fun u x hb => ?_) nofun ?_ ?_ ?_ ?_ ?_ ?_
  · obtain ⟨u, hu, hpre⟩ := h.copied
    exact ⟨u, by dsimp only; omega, hpre⟩
  · have := (h.cast u x hb).1
    refine ⟨by dsimp only; omega, fun hu => ?_⟩
    dsimp only at hu
    omega
  · intro u v hb
    exact Nat.le_trans (h.backed u v hb) (Nat.le_of_lt ht)
  · intro x hx hcand
    exact Nat.le_trans (h.asked x hx hcand).1 (Nat.le_of_lt ht)
  · intro u hu
    exact Nat.le_trans (h.led u hu).1 (Nat.le_of_lt ht)
  · intro u m hm
    exact g.kept hr (Nat.le_trans hm (hr.held_le p u)) List.prefix_rfl (by dsimp only; omega)
      (h.kept u m hm)
  · intro u hu
    exact Nat.le_trans (h.held u hu) (Nat.le_of_lt ht)
  · exact g.settled List.prefix_rfl (Nat.le_of_lt ht) h.settled

theorem Core.Sound.asked_le (h : c.Sound members r p) (x : VoteRequest) (hx : r.asked x)
    (hcand : x.candidate = p) : x.term ≤ c.hard.term := (h.asked x hx hcand).1

theorem Core.Sound.led_le (h : c.Sound members r p) (u : Nat) (hu : r.leader u = some p) :
    u ≤ c.hard.term := (h.led u hu).1

theorem Core.Sound.rest (h : c.Sound members r p) (hi : i ≤ c.commit) :
    Core.Sound members r p { c with commit := i, phase := .idle } :=
  Core.Sound.of_idle rfl h.copied h.cast h.vote h.backed h.asked_le h.led_le h.kept h.held
    (h.settled.of_le hi)

/-! ## Votes -/

theorem Record.evolves_cast (r : Record) (p : NodeId) (t : Nat) (x : NodeId) :
    r.Evolves p (r.cast p t x) :=
  { Record.Evolves.refl p r with
    ballot := fun _ _ _ h => Or.inl h
    ballot_new := fun _ _ _ h => h.imp_right And.left }

/-- A vote keeps the record right if the voter has no other vote in that term. -/
theorem Record.Sound.cast {x : NodeId} (hr : r.Sound members)
    (hfree : ∀ y, r.ballot p t y → y = x) : (r.cast p t x).Sound members := by
  have g := (r.evolves_cast p t x).toGrows
  exact
    { once := by
        rintro v u y z (hy | ⟨rfl, rfl, rfl⟩) (hz | ⟨hv, hu, rfl⟩)
        · exact hr.once v u y z hy hz
        · rw [hv, hu] at hy
          exact hfree y hy
        · exact (hfree z hz).symm
        · rfl
      mandate := fun u y hy => g.mandate hr hy
      term := fun u => g.termSound rfl rfl (hr.term u)
      offers := fun y hy => g.offers hr hy
      held_le := hr.held_le }

theorem Core.Sound.grant (h : c.Sound members r p) (hr : r.Sound members) {x : VoteRequest}
    (hphase : c.phase = .idle) (hterm : x.term = c.hard.term)
    (hfree : ∀ v, c.hard.vote = some v → v.term = x.term → v.candidate = x.candidate) :
    Core.Sound members (r.cast p x.term x.candidate) p
      { c with hard := ⟨x.term, some ⟨x.candidate, x.term⟩⟩ } := by
  have g := (r.evolves_cast p x.term x.candidate).toGrows
  refine Core.Sound.of_idle hphase ?_ ?_ ?_ ?_ ?_ ?_ ?_ ?_ ?_ <;> dsimp only <;> rw [hterm]
  · exact h.copied
  · -- the new vote is the only one of its term
    rintro u y (hb | ⟨-, rfl, rfl⟩)
    · obtain ⟨hle, hvote⟩ := h.cast u y hb
      refine ⟨hle, fun hu => ?_⟩
      have := hfree _ (hvote hu) (by rw [hterm]; exact hu)
      rw [← this, hu]
    · exact ⟨by omega, fun _ => rfl⟩
  · rintro v hv
    obtain rfl := Option.some.inj hv
    exact ⟨rfl, Or.inr ⟨rfl, rfl, rfl⟩⟩
  · rintro u v (hb | ⟨-, rfl, hcand⟩)
    · exact h.backed u v hb
    · omega
  · intro y hy hcand
    exact (h.asked y hy hcand).1
  · intro u hu
    exact (h.led u hu).1
  · intro u m hm
    exact g.kept hr (Nat.le_trans hm (hr.held_le p u)) List.prefix_rfl (Nat.le_refl _) (h.kept u m hm)
  · intro u hu
    exact h.held u hu
  · exact g.settled List.prefix_rfl (Nat.le_refl _) h.settled

/-- To stand is to enter the next term, to vote for oneself there, and to be a candidate. -/
theorem Core.Sound.stand (h : c.Sound members r p) (hr : r.Sound members) (hp : p ∈ members) :
    Core.Sound members (r.cast p (c.hard.term + 1) p) p
      { c with
        hard := ⟨c.hard.term + 1, some ⟨p, c.hard.term + 1⟩⟩
        phase := .candidate [p] } := by
  have hvoted := (h.adopt hr (Nat.lt_succ_self _)).grant hr
    (x := ⟨c.hard.term + 1, p, c.log.length, lastTerm c.log⟩) rfl rfl nofun
  exact
    { hvoted with
      backing := by
        rintro votes v - (hb | ⟨rfl, -, -⟩)
        · -- nobody voted for the node in this term before it stood
          have := h.backed _ v hb
          dsimp only at this
          omega
        · intro u m _ hm _
          exact hvoted.kept u m hm
      asked := by
        intro x hx hcand
        have := (h.asked x hx hcand).1
        refine ⟨by dsimp only; omega, fun _ _ hx => ?_⟩
        dsimp only at hx
        omega
      votes := by
        rintro votes hv
        obtain rfl := Phase.candidate.inj hv
        refine ⟨List.nodup_singleton p, by simpa using hp, ?_⟩
        intro v hv
        exact Or.inr ⟨List.mem_singleton.1 hv, rfl, rfl⟩
      led := by
        intro u hu
        have := (h.led u hu).1
        refine ⟨by dsimp only; omega, fun hu => ?_⟩
        dsimp only at hu
        omega
      leading := nofun }

theorem Core.Sound.count (h : c.Sound members r p) {votes : List NodeId} {v : NodeId}
    (hphase : c.phase = .candidate votes) (hnew : v ∉ votes) (hv : v ∈ members)
    (hballot : r.ballot v c.hard.term p) :
    Core.Sound members r p { c with phase := .candidate (votes ++ [v]) } := by
  obtain ⟨hnodup, hsub, hballots⟩ := h.votes votes hphase
  exact
    { copied := h.copied
      cast := h.cast
      vote := h.vote
      backed := h.backed
      backing := fun _ w _ hb => h.backing votes w hphase hb
      asked := fun x hx hcand => ⟨(h.asked x hx hcand).1,
        fun _ _ hterm => (h.asked x hx hcand).2 votes hphase hterm⟩
      votes := by
        rintro ws hws
        obtain rfl := Phase.candidate.inj hws
        refine ⟨?_, ?_, ?_⟩
        · exact List.nodup_append'.2 ⟨hnodup, List.nodup_singleton v, by simpa using hnew⟩
        · exact List.append_subset.2 ⟨hsub, by simpa using hv⟩
        · intro w hw
          rcases List.mem_append.1 hw with hw | hw
          · exact hballots w hw
          · rw [List.mem_singleton.1 hw]
            exact hballot
      led := fun u hu => ⟨(h.led u hu).1, fun hterm => absurd hphase ((h.led u hu).2 hterm votes)⟩
      leading := nofun
      kept := h.kept
      held := h.held
      settled := h.settled }

/-! ## Questions -/

theorem Record.evolves_ask (r : Record) {x : VoteRequest} (hx : x.candidate = p) :
    r.Evolves p (r.ask x) :=
  { Record.Evolves.refl p r with
    asked := fun _ h => Or.inl h
    asked_new := by
      rintro y (hy | rfl)
      · exact Or.inl hy
      · exact Or.inr hx }

theorem Record.Sound.ask {x : VoteRequest} (hr : r.Sound members) : (r.ask x).Sound members :=
  { hr with term := fun u => { hr.term u with } }

theorem Core.Sound.ask (h : c.Sound members r p) :
    Core.Sound members (r.ask ⟨c.hard.term, p, c.log.length, lastTerm c.log⟩) p c :=
  { h with
    asked := by
      rintro x (hx | rfl) hcand
      · exact h.asked x hx hcand
      · exact ⟨Nat.le_refl _, fun _ _ _ => ⟨rfl, rfl⟩⟩ }

/-! ## Followers -/

theorem Record.evolves_offer (r : Record) (x : AppendRequest) : r.Evolves p (r.offer x) :=
  { Record.Evolves.refl p r with offered := fun _ h => Or.inl h }

theorem Core.Sound.offer {x : AppendRequest} (h : c.Sound members r p) :
    Core.Sound members (r.offer x) p c := { h with }

/-- What a leader sends is a part of its log, and its commit index is right. -/
theorem Record.Sound.offer {x : AppendRequest} (hr : r.Sound members)
    (h : c.Sound members r p) (hphase : c.phase = .leader) (hterm : x.term = c.hard.term)
    (hpart : x.IsPartOf c.log) (hcommit : x.commit = c.commit) : (r.offer x).Sound members := by
  obtain ⟨hleader, hledger, -⟩ := h.leading hphase
  have g := (r.evolves_offer (p := p) x).toGrows
  exact
    { once := hr.once
      mandate := fun u y hy => g.mandate hr hy
      term := fun u => g.termSound rfl rfl (hr.term u)
      offers := by
        rintro y (hy | rfl)
        · exact g.offers hr hy
        · rw [hterm, hcommit]
          refine ⟨?_, ?_, ?_⟩
          · show r.leader _ ≠ none
            rw [hleader]
            simp
          · show y.IsPartOf (r.ledger _)
            rwa [hledger]
          · show Record.Settled _ members _ (r.ledger _) _
            rw [hledger]
            exact g.settled List.prefix_rfl (Nat.le_refl _) h.settled
      held_le := hr.held_le }

/-- A merge takes nothing away that the leader has, so what the node was found to hold, and what is
committed, stays. -/
theorem Core.Sound.merge {x : AppendRequest} (h : c.Sound members r p) (hr : r.Sound members)
    (hphase : c.phase = .idle) (hx : r.offered x) (hterm : x.term = c.hard.term)
    (hprev : termAt c.log x.prevIndex = some x.prevTerm) (hl : Merged c.commit c.log x.entries l) :
    Core.Sound members r p { c with log := l } := by
  obtain ⟨hleader, hpart, -⟩ := hr.offers x hx
  rw [hterm] at hleader hpart
  have hcovers := h.covers hr
  have hL := (hr.term c.hard.term).covers
  have hmatching := hcovers.matching hL
  have hstays : ∀ P, P <+: c.log → P <+: r.ledger c.hard.term → P <+: l := fun P =>
    prefix_of_merged hpart hmatching hL.positioned hprev hl
  refine Core.Sound.of_idle hphase ?_ h.cast h.vote h.backed h.asked_le h.led_le ?_ h.held ?_
  · -- the log is what it was, or has become a part of the leader's
    rcases merged_cases hpart hmatching hL.positioned hprev hl with rfl | ⟨hpre, -⟩
    · exact h.copied
    · exact ⟨c.hard.term, Nat.le_refl _, hpre⟩
  · intro t m hm
    rcases h.kept t m hm with hpre | hmissed
    · by_cases hledger : (r.ledger t).take m <+: r.ledger c.hard.term
      · exact Or.inl (hstays _ hpre hledger)
      · -- then the current leader is one that lacked them, and it is a later one
        refine Or.inr ⟨c.hard.term, ?_, Nat.lt_succ_self _, hleader, hledger⟩
        have hpos : 0 < m := Nat.pos_of_ne_zero (by rintro rfl; simp at hledger)
        have hle := h.held t (by omega)
        refine Nat.lt_of_le_of_ne hle ?_
        rintro rfl
        exact hledger (List.take_prefix m _)
    · exact Or.inr hmissed
  · rcases h.settled with hzero | ⟨t, k, ht, hc, hik, hpre⟩
    · exact Or.inl hzero
    · -- what is committed is in the leader's log, so the merge leaves it
      refine Or.inr ⟨t, k, ht, hc, hik, hstays _ hpre ?_⟩
      exact (take_prefix_of_le hik).trans (hr.take_prefix_of_committed hc hleader ht)

/-- A request never contradicts what a node committed. -/
theorem Core.Sound.not_contradicts {x : AppendRequest} (h : c.Sound members r p)
    (hr : r.Sound members) (hx : r.offered x) (hterm : x.term = c.hard.term)
    (hprev : termAt c.log x.prevIndex = some x.prevTerm) :
    ¬ Contradicts c.commit c.log x.entries := by
  obtain ⟨hleader, hpart, -⟩ := hr.offers x hx
  rw [hterm] at hleader hpart
  have hL := (hr.term c.hard.term).covers
  exact Raft.not_contradicts hpart ((h.covers hr).matching hL) hL.positioned hprev
    (hr.prefix_of_settled h.settled hleader (Nat.le_refl _))

theorem Record.evolves_hold (h : c.Sound members r p) : r.Evolves p (r.hold p c.hard.term i) :=
  { Record.Evolves.refl p r with
    held_le := by
      intro v u
      unfold Record.hold
      dsimp only
      split
      · exact Nat.le_max_left _ _
      · exact Nat.le_refl _
    frozen := by
      intro v t x u hb hu
      unfold Record.hold
      dsimp only
      refine if_neg ?_
      rintro ⟨rfl, rfl⟩
      have := (h.cast t x hb).1
      omega
    held_eq := fun v u hv => if_neg fun hc => hv hc.1 }

theorem Record.held_hold {v : NodeId} (hm : m ≤ (r.hold p t i).held v u) :
    m ≤ r.held v u ∨ v = p ∧ u = t ∧ m ≤ i := by
  unfold Record.hold at hm
  dsimp only at hm
  split at hm
  · rename_i hc
    rcases Nat.le_total (r.held v u) i with hle | hle
    · rw [Nat.max_eq_right hle] at hm
      exact Or.inr ⟨hc.1, hc.2, hm⟩
    · rw [Nat.max_eq_left hle] at hm
      exact Or.inl hm
  · exact Or.inl hm

theorem Record.Sound.hold (hr : r.Sound members) (g : r.Grows (r.hold p t i))
    (hi : i ≤ (r.ledger t).length) : (r.hold p t i).Sound members where
  once := hr.once
  mandate _ _ hy := g.mandate hr hy
  term u := g.termSound rfl rfl (hr.term u)
  offers _ hy := g.offers hr hy
  held_le v u := by
    rcases Record.held_hold (Nat.le_refl ((r.hold p t i).held v u)) with hle | ⟨-, rfl, hle⟩
    · exact Nat.le_trans hle (hr.held_le v u)
    · exact Nat.le_trans hle hi

theorem Core.Sound.confirm (h : c.Sound members r p) (hr : r.Sound members)
    (hphase : c.phase = .idle) (hi : (r.ledger c.hard.term).take i <+: c.log) :
    Core.Sound members (r.hold p c.hard.term i) p c := by
  have g := (Record.evolves_hold (i := i) h).toGrows
  refine Core.Sound.of_idle hphase h.copied h.cast h.vote h.backed h.asked_le h.led_le ?_ ?_
    (g.settled List.prefix_rfl (Nat.le_refl _) h.settled)
  · intro t m hm
    rcases Record.held_hold hm with hold | ⟨-, rfl, hle⟩
    · exact g.kept hr (Nat.le_trans hold (hr.held_le p t)) List.prefix_rfl (Nat.le_refl _)
        (h.kept t m hold)
    · exact Or.inl ((take_prefix_of_le hle).trans hi)
  · intro t ht
    rcases Record.held_hold ht with hold | ⟨-, rfl, -⟩
    · exact h.held t hold
    · exact Nat.le_refl _

/-- A node that holds a request holds the leader's log up to its last index. -/
theorem Core.Sound.take_of_heldBy {x : AppendRequest} (h : c.Sound members r p)
    (hr : r.Sound members) (hx : r.offered x) (hheld : x.HeldBy c.log) :
    x.last ≤ (r.ledger x.term).length ∧ (r.ledger x.term).take x.last <+: c.log := by
  obtain ⟨-, hpart, -⟩ := hr.offers x hx
  refine ⟨last_le_length_of_isPartOf hpart, ?_⟩
  have hL := (hr.term x.term).covers
  rw [← (take_eq_of_heldBy hpart ((h.covers hr).matching hL) hL.positioned hheld).2]
  exact List.take_prefix _ _

theorem Core.Sound.learn {x : AppendRequest} (h : c.Sound members r p) (hr : r.Sound members)
    (hphase : c.phase = .idle) (hx : r.offered x) (hterm : x.term = c.hard.term)
    (hheld : x.HeldBy c.log) (hi : i ≤ min x.commit x.last) :
    Core.Sound members r p { c with commit := i } := by
  obtain ⟨hlast, htake⟩ := h.take_of_heldBy hr hx hheld
  refine Core.Sound.of_idle hphase h.copied h.cast h.vote h.backed h.asked_le h.led_le h.kept
    h.held ?_
  have hs := (hr.offers x hx).2.2.of_le (show i ≤ x.commit by omega)
  rcases hs with rfl | ⟨t, k, ht, hc, hik, hpre⟩
  · exact Or.inl rfl
  · refine Or.inr ⟨t, k, by dsimp only; omega, hc, hik, ?_⟩
    have hlen := le_length_of_termAt hc.2.1
    have hpre' : (r.ledger t).take i <+: (r.ledger x.term).take x.last := by
      refine List.prefix_take_iff.2 ⟨hpre, ?_⟩
      rw [List.length_take]
      omega
    exact hpre'.trans htake

end Raft.Protocol
