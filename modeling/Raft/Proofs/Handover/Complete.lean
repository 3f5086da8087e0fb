import Raft.Proofs.Handover.Acts
import Raft.Proofs.Network.Matched
import Raft.Proofs.Solo.Committed
import Raft.Proofs.Solo.Transfers

/-!
# Complete hand-overs

A leader with a transfer under way holds still, whatever comes in, and hands over a complete log: a
target that is asked to take over holds all that the leader's log had, as long as it has not left
the leader's term.

* `Network.Sound.of_leads`: what the record says of a member that leads.
* `handover_complete` is the result.
-/

namespace Raft

open Handover (Begins Holds)

/-! ## A node by itself -/

namespace Solo

/-- What is seen of a node by itself after more acts. -/
def handoverAfter (r : Node.Remains) (before acts : List Act) : Handover :=
  (run r (before ++ acts)).handover

@[simp]
theorem handoverAfter_nil (r : Node.Remains) (before : List Act) :
    handoverAfter r before [] = (run r before).handover := by
  unfold handoverAfter
  rw [List.append_nil]

theorem Firm.commit_le {n : Solo} (h : n.Firm) :
    n.handover.commit ≤ n.handover.entries.length := by
  unfold handover
  cases hs : n.site with
  | down x => exact Nat.zero_le _
  | up s => exact ((firm_up hs).1 h).intact.le_length

theorem goes_handoverAfter (r : Node.Remains) (before acts : List Act) (a : Act) :
    ∃ src, (handoverAfter r before acts).Goes src (handoverAfter r before (acts ++ [a])) := by
  unfold handoverAfter
  rw [← List.append_assoc]
  exact hands_run r (before ++ acts) a

theorem goes_call (r : Node.Remains) (before : List Act) (target : NodeId) (c : Caller) :
    (handoverAfter r before []).Goes (some (.transfer target (run r before).inbound.length))
      (handoverAfter r before [.event (.transfer target c)]) := by
  rw [handoverAfter_nil]
  unfold handoverAfter
  rw [run_append]
  exact hands_event (steady_run r before) (sound_run r before) (.transfer target c)

end Solo

/-! ## A member of a cluster -/

namespace Network

variable {members : List NodeId} {n : Network} {r : Protocol.Record} {p : NodeId} {t : Nat}

theorem exists_of_leads (hl : (n.handover p).leads = some t) :
    ∃ s l, n.site p = .up s ∧ s.isRunning = true ∧ s.node.queue.any Node.stepsDown = false
      ∧ s.node.role = .leader l ∧ s.node.term = t ∧ (n.handover p).matched = l.matched := by
  unfold handover at hl ⊢
  cases hs : n.site p with
  | down x =>
    rw [hs] at hl
    cases hl
  | up s =>
    rw [hs] at hl
    have hrun : s.isRunning = true := by
      by_contra hne
      simp [Site.handover, hne] at hl
    have hleads : s.node.handover.leads = some t := by
      simpa [Site.handover, hrun] using hl
    unfold Node.handover at hleads
    dsimp only at hleads
    split at hleads
    · cases hleads
    · rename_i hstays
      obtain ⟨l, hleader, hterm⟩ := Option.map_eq_some_iff.1 hleads
      have hrole := Node.role_of_leader? hleader
      refine ⟨s, l, rfl, hrun, by simpa using hstays, hrole, hterm, ?_⟩
      show s.node.handover.matched = _
      rw [Node.handover_of_leader hrole]

/-- The record has the log of a member that leads, and bears out how far it counts its peers. -/
theorem Sound.of_leads (h : Sound members n r) (hl : (n.handover p).leads = some t) :
    n.term p = t ∧ r.ledger t = (n.log p).entries
      ∧ ∀ q, (n.handover p).matchIndex q ≤ r.held q t := by
  obtain ⟨s, l, hs, hrun, hstays, hrole, rfl, hmatched⟩ := exists_of_leads hl
  refine ⟨?_, (h.leading hs hrun hstays hrole).2, fun q => ?_⟩
  · unfold term
    rw [hs]
  · unfold Handover.matchIndex
    rw [hmatched]
    exact ((h.placed hs hrun).fits.tallied l.matched (Node.stance_of_leader hrole)
      hstays).lookup_le

theorem handover_entries (n : Network) (p : NodeId) :
    (n.handover p).entries = (n.log p).entries := by
  unfold handover log
  cases n.site p <;> rfl

theorem Sound.commit_le (h : Sound members n r) (p : NodeId) :
    (n.handover p).commit ≤ (n.handover p).entries.length := by
  rw [handover_entries]
  cases hs : n.site p with
  | down x =>
    unfold handover
    rw [hs]
    exact Nat.zero_le _
  | up s =>
    obtain ⟨u, -, hsettled⟩ := h.settled_of_commits ⟨s, hs, Nat.le_refl _, rfl⟩
    have hle := hsettled.le_length
    unfold handover
    rwa [hs]

def handoverAfter (cluster : List Member) (whole : NodeId → Bool) (before : List Act) (p : NodeId)
    (acts : List Act) : Handover :=
  (run cluster whole (before ++ acts)).handover p

@[simp]
theorem handoverAfter_nil (cluster : List Member) (whole : NodeId → Bool) (before : List Act)
    (p : NodeId) :
    handoverAfter cluster whole before p [] = (run cluster whole before).handover p := by
  unfold handoverAfter
  rw [List.append_nil]

theorem goes_handoverAfter (cluster : List Member) (whole : NodeId → Bool) (before : List Act)
    (p : NodeId) (acts : List Act) (a : Act) :
    ∃ src, (handoverAfter cluster whole before p acts).Goes src
      (handoverAfter cluster whole before p (acts ++ [a])) := by
  unfold handoverAfter
  rw [← List.append_assoc]
  exact (passes_run cluster whole (before ++ acts) a).goes p

theorem goes_call (cluster : List Member) (whole : NodeId → Bool) (before : List Act)
    (p target : NodeId) :
    (handoverAfter cluster whole before p []).Goes
      (some (.transfer target (run cluster whole before).nextCaller))
      (handoverAfter cluster whole before p [.transfer p target]) := by
  obtain ⟨r, -, h, -, -⟩ := exists_sound cluster whole before []
  rw [handoverAfter_nil]
  unfold handoverAfter
  rw [run_append]
  exact goes_transfer h (taken_run cluster whole before) p target

/-- A letter with a request to take over is seen at the member that sent it. -/
theorem asked_of_letter {n' : Network} {target : NodeId} {q : TimeoutNowRequest}
    (hsent : n.sent <+: n'.sent)
    (hl : ⟨p, target, .timeoutNow q⟩ ∈ n'.sent.drop n.sent.length) :
    ∃ new, (n'.handover p).asks = (n.handover p).asks ++ new ∧ (target, q) ∈ new := by
  obtain ⟨new, hnew⟩ := hsent
  rw [← hnew, List.drop_left] at hl
  refine ⟨new.filterMap (Letter.asked? p), ?_, List.mem_filterMap.2 ⟨_, hl, if_pos rfl⟩⟩
  show n'.sent.filterMap _ = n.sent.filterMap _ ++ _
  rw [← hnew, List.filterMap_append]

/-- **A request to take over** is sent by a leader that counts its target for its whole log. From
then on the target holds that log, as long as it has not left the leader's term. -/
theorem hands_over (cluster : List Member) (whole : NodeId → Bool) (acts later : List Act) (a : Act)
    {target : NodeId} {q : TimeoutNowRequest}
    (hl : ⟨p, target, .timeoutNow q⟩ ∈ (run cluster whole (acts ++ [a])).sent.drop
      (run cluster whole acts).sent.length) :
    q.term = (run cluster whole (acts ++ [a])).term p
      ∧ ((run cluster whole (acts ++ [a])).log p).lastIndex
        ≤ ((run cluster whole (acts ++ [a])).handover p).matchIndex target
      ∧ ((run cluster whole (acts ++ [a] ++ later)).term target = q.term →
        ∀ i e, ((run cluster whole (acts ++ [a])).log p).get? i = some e →
          ((run cluster whole (acts ++ [a] ++ later)).log target).get? i = some e) := by
  have hpasses := passes_run cluster whole acts a
  obtain ⟨new, hasks, hmem⟩ := asked_of_letter hpasses.sent hl
  obtain ⟨src, hgoes⟩ := hpasses.goes p
  obtain ⟨x, q', -, hasked, hleads, hle⟩ := hgoes.asked fun hsame => by
    rw [hasks, List.append_right_eq_self] at hsame
    rw [hsame] at hmem
    cases hmem
  have hnew : new = [(x.target, q')] := List.append_cancel_left (hasks.symm.trans hasked)
  rw [hnew, List.mem_singleton] at hmem
  obtain ⟨rfl, rfl⟩ := Prod.mk.inj hmem
  -- the record has the leader's log, and later records what the target was found to hold
  obtain ⟨r, r', h, g, h'⟩ := exists_sound cluster whole (acts ++ [a]) later
  obtain ⟨hterm, hledger, hheld⟩ := h.of_leads hleads
  rw [handover_entries] at hle
  refine ⟨hterm.symm, hle, fun hstill i e he => ?_⟩
  have hlen : ((run cluster whole (acts ++ [a])).log p).entries.length ≤ r'.held x.target q.term :=
    Nat.le_trans hle (Nat.le_trans (hheld x.target) (g.held_le x.target q.term))
  have hpre := h'.take_isPrefix (Nat.le_of_eq hstill) hlen
  rw [g.take_eq (Nat.le_of_eq (congrArg List.length hledger).symm), hledger, List.take_length]
    at hpre
  exact entryAt_of_isPrefix hpre he

end Network

/-! ## The result -/

open Network (handoverAfter trio strict electFirst commitFirst run)

/-- **Transfers freeze the leader and hand over a complete log.** From the call that begins a
transfer until the transfer ends, a node by itself keeps its log, whatever comes in, commits nothing
but what was in it or was committed before, and asks at most once, nobody but the target, which it
then counts for the whole log. If its log and its state machine were in order when it started, and
entries came in by their indexes, nothing is committed but what was in the log. All that is true of
a member of a cluster. A target that is asked holds all that the leader's log had then, as long as
it is in the leader's term. -/
theorem handover_complete :
    (∀ (r : Node.Remains) (before later : List Solo.Act) (target : NodeId) (c : Caller),
      Begins (Solo.handoverAfter r before) (.event (.transfer target c)) later →
        Holds (Solo.handoverAfter r before) (.event (.transfer target c) :: later) target
          ∧ (Positioned r.log.entries → r.machine.last ≤ r.log.lastIndex →
            (∀ a ∈ before, a ≠ .crash ∧ a.InOrder) →
            (Solo.handoverAfter r before (.event (.transfer target c) :: later)).commit
              ≤ (Solo.handoverAfter r before []).entries.length))
    ∧ (∀ (cluster : List Member) (whole : NodeId → Bool) (before later : List Network.Act)
        (p target : NodeId),
      Begins (Network.handoverAfter cluster whole before p) (.transfer p target) later →
        Holds (Network.handoverAfter cluster whole before p) (.transfer p target :: later) target
          ∧ (Network.handoverAfter cluster whole before p (.transfer p target :: later)).commit
            ≤ ((Network.run cluster whole before).log p).lastIndex)
    ∧ ∀ (cluster : List Member) (whole : NodeId → Bool) (acts later : List Network.Act)
        (a : Network.Act) (p target : NodeId) (q : TimeoutNowRequest),
      ⟨p, target, .timeoutNow q⟩ ∈ (Network.run cluster whole (acts ++ [a])).sent.drop
          (Network.run cluster whole acts).sent.length →
        q.term = (Network.run cluster whole (acts ++ [a])).term p
        ∧ ((Network.run cluster whole (acts ++ [a])).log p).lastIndex
          ≤ (Network.handoverAfter cluster whole acts p [a]).matchIndex target
        ∧ ((Network.run cluster whole (acts ++ [a] ++ later)).term target = q.term →
          ∀ i e, ((Network.run cluster whole (acts ++ [a])).log p).get? i = some e →
            ((Network.run cluster whole (acts ++ [a] ++ later)).log target).get? i = some e) := by
  refine ⟨fun r before later target c hb => ?_, fun cluster whole before later p target hb => ?_,
    fun cluster whole acts later a p target q hl => ?_⟩
  · have hholds := Handover.holds_along hb (Solo.goes_call r before target c)
      (Solo.goes_handoverAfter r before)
    refine ⟨hholds, fun hlog hlast hbefore => hholds.commit_le_length ?_⟩
    have hdown : ({ site := .down r } : Solo).Firm := ⟨hlog, hlast⟩
    rw [Solo.handoverAfter_nil]
    exact (Solo.sustains_steps hdown hbefore).1.commit_le
  · have hholds := Handover.holds_along hb (Network.goes_call cluster whole before p target)
      (Network.goes_handoverAfter cluster whole before p)
    obtain ⟨r, -, h, -, -⟩ := Network.exists_sound cluster whole before []
    have hle := hholds.commit_le_length (by rw [Network.handoverAfter_nil]; exact h.commit_le p)
    rw [Network.handoverAfter_nil, Network.handover_entries] at hle
    exact ⟨hholds, hle⟩
  · exact Network.hands_over cluster whole acts later a hl

/-- The first member is called to hand over to the second, which lacks the second entry. -/
def callFirst : List Network.Act := electFirst ++ commitFirst ++ [Network.Act.transfer 1 2]

/-- The second member is found to hold the second entry. -/
def confirmFirst : List Network.Act := callFirst ++ [Network.Act.result 2]

/-- The target of a node by itself holds its log already, and is asked at once. The target in a
cluster is asked when it is found to hold the last entry. -/
theorem handover_complete_of_trio :
    Holds (Solo.handoverAfter {} Solo.leadTwo) (.event (.transfer 2 0) :: Solo.acceptance) 2
      ∧ (Solo.handoverAfter {} Solo.leadTwo (.event (.transfer 2 0) :: Solo.acceptance)).commit
        ≤ (Solo.handoverAfter {} Solo.leadTwo []).entries.length
      ∧ Holds (handoverAfter trio strict (electFirst ++ commitFirst) 1) [.transfer 1 2, .result 2] 2
      ∧ ⟨1, 2, .timeoutNow ⟨1, 1⟩⟩
        ∈ (run trio strict confirmFirst).sent.drop (run trio strict callFirst).sent.length
      ∧ ∀ i e, ((run trio strict confirmFirst).log 1).get? i = some e →
        ((run trio strict (confirmFirst ++ [Network.Act.role 1])).log 2).get? i = some e := by
  have hsolo : Begins (Solo.handoverAfter {} Solo.leadTwo) (.event (.transfer 2 0))
      Solo.acceptance :=
    Handover.begins_singleton (by cbv) (Option.isSome_iff_ne_none.1 (by cbv))
  have hlog : Positioned ({} : Node.Remains).log.entries := positioned_nil
  have hbefore : ∀ a ∈ Solo.leadTwo, a ≠ .crash ∧ a.InOrder := by
    simp [Solo.leadTwo, Solo.electAlone, Solo.startOne, Solo.Act.InOrder, Event.InOrder]
  have hbegins : Begins (handoverAfter trio strict (electFirst ++ commitFirst) 1) (.transfer 1 2)
      [.result 2] :=
    Handover.begins_singleton (by cbv) (Option.isSome_iff_ne_none.1 (by cbv))
  have hnew : (run trio strict confirmFirst).sent.drop (run trio strict callFirst).sent.length
      = [⟨1, 2, .timeoutNow ⟨1, 1⟩⟩] := by cbv
  have hletter : ⟨1, 2, .timeoutNow ⟨1, 1⟩⟩
      ∈ (run trio strict confirmFirst).sent.drop (run trio strict callFirst).sent.length := by
    rw [hnew]
    exact List.mem_singleton_self _
  have hterm : (run trio strict (confirmFirst ++ [Network.Act.role 1])).term 2 = 1 := by cbv
  obtain ⟨hfrozen, hmember, hcomplete⟩ := handover_complete
  obtain ⟨hholds, hcommit⟩ := hfrozen {} Solo.leadTwo Solo.acceptance 2 0 hsolo
  exact ⟨hholds, hcommit hlog (Nat.le_refl _) hbefore,
    (hmember trio strict (electFirst ++ commitFirst) [.result 2] 1 2 hbegins).1, hletter,
    (hcomplete trio strict callFirst [.role 1] (.result 2) 1 2 ⟨1, 1⟩ hletter).2.2 hterm⟩

end Raft
