import Raft.Proofs.Node.PeerMap
import Raft.Proofs.Tenure.Servers

/-!
# Credit within a term

A leader never counts a peer for less than before. Who leads a term and steps down, or falls and
starts again, follows in that term until it enters another one, so that no later leadership of the
term begins with less.

* `Tenure.Credits t q m a`: whoever leads the term counts the peer for so many entries.
* `Deed.credits`, `Worked.credits`, `Server.Does.credits`: it goes on to do so.
-/

namespace Raft

/-- The node has reached a term and stored one that is not older. As long as it is in that term it
is no candidate, and as its leader it counts a peer for at least `m` entries. -/
structure Tenure.Credits (t : Nat) (q : NodeId) (m : Nat) (a : Tenure) : Prop where
  kept : a.hard.term ≤ (a.stored.getD {}).term
  reached : t ≤ a.hard.term
  elected : a.hard.term = t → ∀ votes, a.seat ≠ .candidate votes
  counts : a.hard.term = t → ∀ x, a.seat = .leader x → ∃ i, x.matched.lookup q = some i ∧ m ≤ i

variable {Source : Option Event → Prop} {Named : String → Prop} {src : Option Event}
  {o a b : Tenure} {s s' : Server} {t m : Nat} {q : NodeId}

namespace Tenure.Credits

theorem enter (h : a.Credits t q m) {hard : HardState} {seat : Seat} {queue : List RoleEvent}
    (hlt : a.hard.term < hard.term) :
    ({ a with seat, hard, stored := some hard, queue } : Tenure).Credits t q m := by
  have hnewer : hard.term ≠ t := by
    have := h.reached
    omega
  exact ⟨Nat.le_refl _, Nat.le_trans h.reached (Nat.le_of_lt hlt),
    fun hsame => absurd hsame hnewer, fun hsame => absurd hsame hnewer⟩

/-- The seat changes, but not to that of a candidate. -/
theorem sit (h : a.Credits t q m) {seat : Seat} {log : Log} {waiters : Waiters}
    {queue : List RoleEvent} {said : List Effect}
    (hcandidate : a.hard.term = t → ∀ votes, seat ≠ .candidate votes)
    (hleader : a.hard.term = t → ∀ x, seat = .leader x →
      ∃ i, x.matched.lookup q = some i ∧ m ≤ i) :
    ({ a with seat, log, waiters, queue, said } : Tenure).Credits t q m :=
  ⟨h.kept, h.reached, hcandidate, hleader⟩

theorem note (h : a.Credits t q m) {x y : Progress} (hseat : a.seat = .leader x)
    (hmatched : ∀ i, x.matched.lookup q = some i → ∃ j, y.matched.lookup q = some j ∧ i ≤ j)
    {said : List Effect} : ({ a with seat := .leader y, said } : Tenure).Credits t q m := by
  refine h.sit (fun _ => nofun) ?_
  rintro hterm z hz
  obtain rfl := Seat.leader.inj hz
  obtain ⟨i, hi, hle⟩ := h.counts hterm x hseat
  obtain ⟨j, hj, hij⟩ := hmatched i hi
  exact ⟨j, hj, Nat.le_trans hle hij⟩

end Tenure.Credits

theorem Deed.credits (h : Deed src o a b) (ha : a.Credits t q m) : b.Credits t q m := by
  cases h with
  | say | merge | summon | elect | commit | postpone | append | register =>
    exact ha.sit ha.elected ha.counts
  | follow h hseat hterm =>
    refine ⟨Nat.le_refl _, Nat.le_trans ha.reached hterm, fun _ votes => ?_, fun _ x hx => ?_⟩
    · exact hseat ▸ nofun
    · cases hseat.symm.trans hx
  | yield u l hqueue hterm =>
    rcases Nat.lt_or_ge a.hard.term u with hlt | hge
    · rw [Tenure.adopt_of_lt hlt]
      exact ha.enter hlt
    · rw [Tenure.adopt_of_le hge]
      exact ha.sit ha.elected ha.counts
  | stand u ho hqueue hseat hterm => exact ha.enter (Nat.lt_succ_of_le hterm)
  | count peer votes hqueue hseat =>
    exact ha.sit (fun hterm => absurd hseat (ha.elected hterm votes)) fun _ => nofun
  | lead votes l ho hqueue hseat =>
    exact ha.sit (fun _ => nofun) fun hterm => absurd hseat (ha.elected hterm votes)
  | send peer r x next commit limit hseat =>
    refine ha.note hseat fun i hi => ?_
    exact ⟨i, hi, Nat.le_refl i⟩
  | tally peer request y x hsrc hterm hyterm hsuccess hseat =>
    refine ha.note hseat fun i hi => ?_
    dsimp only
    rw [PeerMap.lookup_put]
    split
    · rename_i hpeer
      rw [← hpeer, hi]
      exact ⟨_, rfl, Nat.le_max_left ..⟩
    · exact ⟨i, hi, Nat.le_refl i⟩
  | retreat peer request y hint next x hsrc hterm hyterm hsuccess hhint hseat =>
    refine ha.note hseat fun i hi => ?_
    exact ⟨i, hi, Nat.le_refl i⟩

theorem Worked.credits (h : Worked src a b) (ha : a.Credits t q m) : b.Credits t q m := by
  cases h with
  | told => exact ha.sit ha.elected ha.counts
  | retired l rest others =>
    cases hseat : a.seat with
    | follower | candidate =>
      rw [Tenure.retire_of_ne (by rw [hseat]; exact nofun)]
      exact ha.sit (fun _ => nofun) fun _ => nofun
    | leader x =>
      rw [Tenure.retire_of_leader hseat]
      exact ha.sit (fun _ => nofun) fun _ => nofun
  | handled b htakes h =>
    clear htakes
    refine h.induct (P := Tenure.Credits t q m) (fun _ _ _ hx hdeed => hdeed.credits hx) ?_
    unfold Tenure.receive
    split
    · rename_i x hseat
      have hpop : ({ a with queue := [] } : Tenure).Credits t q m := ha.sit ha.elected ha.counts
      split
      · refine hpop.note hseat fun i hi => ?_
        exact ⟨i, hi, Nat.le_refl i⟩
      · exact hpop
    · exact ha.sit ha.elected ha.counts

namespace Server

/-- A server credits a peer while its event loop runs, and stored a term that is not older. -/
structure Credits (t : Nat) (q : NodeId) (m : Nat) (s : Server) : Prop where
  right : s.isRunning = true → s.node.tenure.Credits t q m
  stored : t ≤ (s.node.stored.getD {}).term

theorem Labours.credits (h : Labours src s s') (hs : s.node.tenure.Credits t q m) :
    s'.Credits t q m := by
  cases h with
  | goes _ h =>
    have hs' := h.credits hs
    exact ⟨fun _ => hs', Nat.le_trans hs'.reached hs'.kept⟩
  | ends n hended h hspares =>
    have hn := h.credits hs
    exact ⟨fun hrun => absurd hrun (not_isRunning hended),
      hspares.le_stored hn.kept hn.reached⟩

theorem Does.credits (h : s.Does Source Named s') (hs : s.Credits t q m) : s'.Credits t q m := by
  rcases h.idles_or_labours with ⟨hended, hidles⟩ | ⟨src, hrun, -, h⟩
  · obtain ⟨log, applied, done, waiters, replied, -, h⟩ := hidles
    constructor
    · intro hrun
      have hright := hs.right (isRunning_of_ended hended ▸ hrun)
      rw [h]
      exact ⟨hright.kept, hright.reached, hright.elected, hright.counts⟩
    · have hstored : s'.node.stored = s.node.stored := congrArg Tenure.stored h
      rw [hstored]
      exact hs.stored
  · exact h.credits (hs.right hrun)

end Server

end Raft
