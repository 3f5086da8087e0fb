import Raft.Proofs.Network.Progress
import Raft.Proofs.Tenure.Credits

/-!
# The indexes of a leader

A leader goes on sending a peer what comes after the entries that the peer is known to hold, and
never goes beyond its own log. What a peer is known to hold never shrinks while the leader's term
lasts. And a peer is in flight exactly as long as one append request to it has no outcome.

* `Network.nextIndex?` and `Network.inFlight` read what a leader keeps of its peers.
* `Site.Turns.credits`: match indexes do not shrink in a turn.
* `Exchange.leader_progress` is the result.
-/

namespace Raft

namespace Network

variable {n : Network} {Takes : Server → Option Event → Prop} {A B : Site} {es : List Effect}
  {p q : NodeId} {t m : Nat}

/-- The index that a leader goes on at with a peer. -/
def nextIndex? (n : Network) (p q : NodeId) : Option Nat :=
  match n.site p with
  | .up s => s.node.leader?.bind fun l => l.next.lookup q
  | .down _ => none

/-- The peers that a leader takes to have a request under way. -/
def inFlight (n : Network) (p : NodeId) : List NodeId :=
  match n.site p with
  | .up s => (s.node.leader?.map LeaderState.inFlight).getD []
  | .down _ => []

theorem exists_leader_of_leads (h : n.Leads p t) :
    ∃ s l, n.site p = .up s ∧ s.isRunning = true ∧ s.node.queue = [] ∧ s.node.role = .leader l
      ∧ s.node.term = t := by
  obtain ⟨s, hs, hrun, hqueue, hkind, hterm⟩ := h
  cases hrole : s.node.role with
  | leader l => exact ⟨s, l, hs, hrun, hqueue, hrole, hterm⟩
  | follower | candidate =>
    rw [hrole] at hkind
    cases hkind

section Leader

variable {s : Server} {l : LeaderState} (hs : n.site p = .up s) (hrole : s.node.role = .leader l)
include hs hrole

theorem matchIndex?_eq : n.matchIndex? p q = l.matched.lookup q := by
  unfold matchIndex? Node.leader?
  rw [hs]
  dsimp only
  rw [hrole]
  rfl

theorem nextIndex?_eq : n.nextIndex? p q = l.next.lookup q := by
  unfold nextIndex? Node.leader?
  rw [hs]
  dsimp only
  rw [hrole]
  rfl

theorem inFlight_eq : n.inFlight p = l.inFlight := by
  unfold inFlight Node.leader?
  rw [hs]
  dsimp only
  rw [hrole]
  rfl

end Leader

/-! ## Within a term -/

/-- A member credits a peer; without a server, it has stored a term that is not older. -/
def Site.Credits (t : Nat) (q : NodeId) (m : Nat) : Site → Prop
  | .up s => s.Credits t q m
  | .down r => t ≤ (r.stored.getD {}).term

theorem Site.Turns.credits (h : A.Turns Takes es B) (hA : A.Credits t q m) : B.Credits t q m := by
  cases h with
  | does Named h =>
    have ht := h.credits hA
    refine ⟨fun hrun => ?_, ht.stored⟩
    have hright := ht.right hrun
    exact ⟨hright.kept, hright.reached, hright.elected, hright.counts⟩
  | falls s => exact hA.stored
  | @starts r storage settings window now seed s hup hstored hlog =>
    have htenure := (Server.start_tenure hup).2
    have hreached : t ≤ (storage.stored.getD {}).term := hstored ▸ hA
    have hsame : s.node.stored = storage.stored := congrArg Tenure.stored htenure
    refine ⟨fun _ => ?_, ?_⟩
    · rw [htenure]
      exact ⟨Nat.le_refl _, hreached, fun _ => nofun, fun _ => nofun⟩
    · rw [hsame]
      exact hreached
  | rests hstored =>
    show t ≤ _
    rw [hstored]
    exact hA

theorem Settled.credits (h : n.Settled) (cluster : List Member) (acts : List Act)
    (hp : (n.site p).Credits t q m) : ((n.steps cluster acts).site p).Credits t q m := by
  induction acts generalizing n with
  | nil => exact hp
  | cons a acts ih =>
    obtain ⟨p', es, B, hturns, hturned⟩ := h.turns cluster a
    refine ih (h.step cluster a) ?_
    by_cases hsame : p = p'
    · subst hsame
      rw [hturned.site_self]
      exact hturns.credits hp
    · rw [hturned.site_of_ne hsame]
      exact hp

end Network

namespace Exchange

open Network (trio strict electFirst commitFirst)

variable {members : List NodeId} {x : Exchange} {p q : NodeId} {t : Nat}

/-- What a leader knows of a peer. -/
theorem Kept.tracks (h : Kept members x) {s : Server} {l : LeaderState} (hs : x.net.site p = .up s)
    (hrun : s.isRunning = true) (hqueue : s.node.queue = []) (hrole : s.node.role = .leader l)
    (hq : q ∈ members) (hne : q ≠ p) :
    ∃ m v, l.matched.lookup q = some m ∧ l.next.lookup q = some v ∧ m < v
      ∧ v ≤ s.node.log.lastIndex + 1 ∧ s.node.tenure.Credits s.node.term q m
      ∧ x.awaiting p q s.node.term = if q ∈ l.inFlight then 1 else 0 := by
  have hbooks : SiteBooks (x.awaiting p) (x.Refused p) (x.net.site p) := h.books p
  rw [hs] at hbooks
  have hright := hbooks.right hrun
  have hseat : s.node.tenure.seat = .leader l.progress := congrArg Role.seat hrole
  have hstays : s.node.tenure.retires = false := Tenure.stays_of_free hqueue
  obtain ⟨record, hsound⟩ := h.sound
  have hpeer : q ∈ s.node.tenure.peers := (mem_peers hsound hs hrun).2 ⟨hq, hne⟩
  obtain ⟨m, v, htracks⟩ := hright.tracks _ hseat hstays q hpeer
  refine ⟨m, v, htracks.matched, htracks.next, htracks.lt, htracks.le, ?_, ?_⟩
  · refine ⟨hright.kept, Nat.le_refl _, fun _ votes => hseat ▸ nofun, fun _ y hy => ?_⟩
    obtain rfl := Seat.leader.inj (hseat.symm.trans hy)
    exact ⟨m, htracks.matched, Nat.le_refl m⟩
  · have hawaits := hright.awaits _ hseat hstays q
    unfold Tenure.awaited at hawaits
    rw [h.settled.said_eq_nil hs] at hawaits
    exact hawaits

/-- **The books of a leader are right.** A leader of a term whose role events are handled goes on
with each peer after the entries that the peer is counted for, at most right behind its own log.
Wherever it leads the term later, it counts the peer for no less. And the outcome of at most one
append request of the term is awaited of the peer, of one exactly if the peer is in flight. -/
theorem leader_progress (cluster : List Member) (whole : NodeId → Bool)
    (acts later : List Network.Act) (hl : (run cluster whole acts).net.Leads p t)
    (hq : q ∈ cluster.map Member.id) (hne : q ≠ p) :
    let x := run cluster whole acts
    let y := run cluster whole (acts ++ later)
    ∃ m v, x.net.matchIndex? p q = some m ∧ x.net.nextIndex? p q = some v
      ∧ m < v ∧ v ≤ (x.net.log p).lastIndex + 1
      ∧ (y.net.Leads p t → ∃ m', y.net.matchIndex? p q = some m' ∧ m ≤ m')
      ∧ x.awaiting p q t ≤ 1
      ∧ (x.awaiting p q t = 1 ↔ q ∈ x.net.inFlight p) := by
  intro x y
  have hkept := kept_run cluster whole acts
  obtain ⟨s, l, hs, hrun, hqueue, hrole, rfl⟩ := Network.exists_leader_of_leads hl
  obtain ⟨m, v, hmatched, hnext, hlt, hle, hcredits, hawaits⟩ :=
    hkept.tracks hs hrun hqueue hrole hq hne
  refine ⟨m, v, (Network.matchIndex?_eq hs hrole).trans hmatched,
    (Network.nextIndex?_eq hs hrole).trans hnext, hlt, ?_, ?_, ?_, ?_⟩
  · rw [Network.log_of_up hs]
    exact hle
  · -- later acts are acts of the cluster, and none takes back what a peer is counted for
    intro hl'
    obtain ⟨acts', hnet⟩ := exists_steps cluster x later
    rw [← run_append] at hnet
    have hlater : (y.net.site p).Credits s.node.term q m := by
      rw [hnet]
      refine hkept.settled.credits cluster acts' ?_
      rw [hs]
      exact ⟨fun _ => hcredits, hcredits.kept⟩
    obtain ⟨s', l', hs', hrun', -, hrole', hterm⟩ := Network.exists_leader_of_leads hl'
    rw [hs'] at hlater
    have hseat : s'.node.tenure.seat = .leader l'.progress := congrArg Role.seat hrole'
    obtain ⟨m', hm', hmm'⟩ := (hlater.right hrun').counts hterm _ hseat
    exact ⟨m', (Network.matchIndex?_eq hs' hrole').trans hm', hmm'⟩
  · rw [hawaits]
    split <;> omega
  · rw [hawaits, Network.inFlight_eq hs hrole]
    by_cases hmem : q ∈ l.inFlight <;> simp [hmem]

/-- The first member sends the second one a command, and learns that it has taken it. -/
theorem leader_progress_of_trio :
    (run trio strict (electFirst ++ commitFirst)).net.Leads 1 1
      ∧ (run trio strict (electFirst ++ commitFirst ++ [.result 2, .role 1])).net.Leads 1 1
      ∧ (run trio strict (electFirst ++ commitFirst)).net.matchIndex? 1 2 = some 1
      ∧ (∃ m, (run trio strict (electFirst ++ commitFirst
          ++ [.result 2, .role 1])).net.matchIndex? 1 2 = some m ∧ 1 ≤ m)
      ∧ (run trio strict (electFirst ++ commitFirst)).awaiting 1 2 1 = 1
      ∧ 2 ∈ (run trio strict (electFirst ++ commitFirst)).net.inFlight 1 := by
  obtain ⟨hl, hl'⟩ : (run trio strict (electFirst ++ commitFirst)).net.Leads 1 1
      ∧ (run trio strict (electFirst ++ commitFirst ++ [.result 2, .role 1])).net.Leads 1 1 :=
    of_decide_eq_true (by cbv)
  have hm : (run trio strict (electFirst ++ commitFirst)).net.matchIndex? 1 2 = some 1 := by cbv
  have hone : (run trio strict (electFirst ++ commitFirst)).awaiting 1 2 1 = 1 := by cbv
  obtain ⟨m, v, hmatched, -, -, -, hlater, -, hflight⟩ :=
    leader_progress trio strict (electFirst ++ commitFirst) [.result 2, .role 1] (q := 2) hl
      (by decide) (by decide)
  obtain rfl : m = 1 := Option.some.inj (hmatched.symm.trans hm)
  exact ⟨hl, hl', hm, hlater hl', hone, hflight.1 hone⟩

end Exchange

end Raft
