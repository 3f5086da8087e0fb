import Mathlib
import Raft.Proofs.Network.Runs

/-!
# Safety of a cluster

What a cluster guarantees under any schedule, whatever is lost, delayed, duplicated or reordered, and
however often its members crash and start again. Each property is read off the record that the
cluster agrees with.

* `log_matching`: logs that agree in the term of an entry agree up to it.
* `election_safety`: a term has one leader.
* `state_machine_safety`: what one member committed stays committed, and every later leader has it.
* `no_duplicate_commands`: no request of a client is in a log twice.

Schedules on fixed acts are evaluated by `cbv`, here and in the modules that build on this one. It
unfolds the state monad by equations which only the whole of Mathlib brings along.
-/

namespace Raft.Network

open Protocol (Record)

variable {members : List NodeId} {n : Network} {r : Record} {p : NodeId} {t i : Nat}

/-! ## A schedule -/

def trio : List Member := [1, 2, 3].map Member.ofId

def startOf (p : NodeId) : Act := .start p (Settings.forNode {} p) 16 0 p false

/-- The first member stands for election, and is elected with the vote of the second. -/
def electFirst : List Act :=
  [startOf 1, startOf 2, startOf 3, .setClock 1 1000, .tick 1, .role 1, .request 0, .result 0,
    .role 1]

/-- The second member takes the first one's no-op, which is committed, and a command after it. The
command is sent again by its client. -/
def commitFirst : List Act :=
  [.request 2, .result 1, .role 1, .signal 1, .propose 1 ⟨"client", 1, [7]⟩ "first",
    .propose 1 ⟨"client", 1, [7]⟩ "second", .request 4]

/-- Every log refuses gaps whole. -/
def strict : NodeId → Bool := fun _ => true

/-! ## Logs -/

/-- **Log matching.** If two logs hold an entry of the same term at an index, they hold the same
entries at every index up to it. -/
theorem log_matching (cluster : List Member) (whole : NodeId → Bool) (acts : List Act)
    (p q : NodeId) {i : Nat} {a b : Entry}
    (ha : ((run cluster whole acts).log p).get? i = some a)
    (hb : ((run cluster whole acts).log q).get? i = some b) (hterm : a.term = b.term) :
    ∀ j, 1 ≤ j → j ≤ i → ∃ e, ((run cluster whole acts).log p).get? j = some e
      ∧ ((run cluster whole acts).log q).get? j = some e := by
  obtain ⟨r, -, h, -, -⟩ := exists_sound cluster whole acts []
  rw [Log.get?_eq_entryAt] at ha hb
  have hta := termAt_of_entryAt ha
  have htb := termAt_of_entryAt hb
  rw [hterm] at hta
  have htake := (h.covers p).take_eq (h.covers q) hta htb
  intro j hj hji
  have hlen := (le_length_of_entryAt ha).2
  obtain ⟨e, he⟩ := exists_entryAt hj (Nat.le_trans hji hlen)
  refine ⟨e, he, ?_⟩
  rw [Log.get?_eq_entryAt, ← entryAt_congr htake hji]
  exact he

theorem log_matching_of_trio :
    ((run trio strict (electFirst ++ commitFirst)).log 1).get? 2
        = some ⟨2, 1, .command ⟨"client", 1, [7]⟩⟩
      ∧ ∃ e, ((run trio strict (electFirst ++ commitFirst)).log 1).get? 1 = some e
        ∧ ((run trio strict (electFirst ++ commitFirst)).log 2).get? 1 = some e := by
  obtain ⟨h1, h2⟩ : ((run trio strict (electFirst ++ commitFirst)).log 1).get? 2
        = some ⟨2, 1, .command ⟨"client", 1, [7]⟩⟩
      ∧ ((run trio strict (electFirst ++ commitFirst)).log 2).get? 2
        = some ⟨2, 1, .command ⟨"client", 1, [7]⟩⟩ := of_decide_eq_true (by cbv)
  exact ⟨h1, log_matching trio strict (electFirst ++ commitFirst) 1 2 h1 h2 rfl 1 (by decide)
    (by decide)⟩

/-! ## Leaders -/

theorem Sound.leading (h : Sound members n r) {s : Server} {l : LeaderState}
    (hs : n.site p = .up s) (hrun : s.isRunning = true)
    (hstays : s.node.queue.any Node.stepsDown = false) (hrole : s.node.role = .leader l) :
    r.leader s.node.term = some p ∧ r.ledger s.node.term = (n.log p).entries := by
  have hcore := h.core p
  rw [hs, Site.core_up hrun] at hcore
  obtain ⟨hleader, hledger, -⟩ :=
    hcore.leading (Node.Outline.phase_of_stays hstays (Node.stance_of_leader hrole))
  rw [log_of_up hs]
  exact ⟨hleader, hledger⟩

/-- The record names whoever leads a term, with its log. -/
theorem Sound.leader_of_leads (h : Sound members n r) (hl : n.Leads p t) :
    r.leader t = some p ∧ r.ledger t = (n.log p).entries := by
  obtain ⟨s, hs, hrun, hqueue, hkind, rfl⟩ := hl
  cases hrole : s.node.role with
  | leader l => exact h.leading hs hrun (by rw [hqueue]; rfl) hrole
  | follower | candidate =>
    rw [hrole] at hkind
    cases hkind

/-- **Election safety.** Whoever leads a term at any time, no other member ever does. -/
theorem election_safety (cluster : List Member) (whole : NodeId → Bool) (acts later : List Act)
    {p q : NodeId} {t : Nat} (hp : (run cluster whole acts).Leads p t)
    (hq : (run cluster whole (acts ++ later)).Leads q t) : p = q := by
  obtain ⟨r, r', h, g, h'⟩ := exists_sound cluster whole acts later
  have hleader := g.leader t p (h.leader_of_leads hp).1
  rw [(h'.leader_of_leads hq).1] at hleader
  exact (Option.some.inj hleader).symm

theorem election_safety_of_trio :
    (run trio strict electFirst).Leads 1 1
      ∧ (run trio strict (electFirst ++ commitFirst)).Leads 1 1 ∧ (1 : NodeId) = 1 := by
  obtain ⟨h1, h2⟩ : (run trio strict electFirst).Leads 1 1
      ∧ (run trio strict (electFirst ++ commitFirst)).Leads 1 1 := of_decide_eq_true (by cbv)
  exact ⟨h1, h2, election_safety trio strict electFirst commitFirst h1 h2⟩

/-! ## Commits -/

/-- **State machine safety, with leader completeness.** If a member commits an index in a term, every
leader of that term or a later one has the same entry there from then on, and so has everybody who
commits that index. No append request is answered as one that contradicts committed entries. -/
theorem state_machine_safety (cluster : List Member) (whole : NodeId → Bool)
    (acts later : List Act) :
    (∀ p t i, 1 ≤ i → (run cluster whole acts).Commits p t i →
      ∃ e, ((run cluster whole acts).log p).get? i = some e
        ∧ (∀ q u, t ≤ u → (run cluster whole (acts ++ later)).Leads q u →
          ((run cluster whole (acts ++ later)).log q).get? i = some e)
        ∧ ∀ q u, (run cluster whole (acts ++ later)).Commits q u i →
          ((run cluster whole (acts ++ later)).log q).get? i = some e)
      ∧ ∀ y ∈ (run cluster whole acts).replies, ∀ index commit,
        y.answer ≠ .append (.error (.replication (.committedConflict index commit))) := by
  obtain ⟨r, r', h, g, h'⟩ := exists_sound cluster whole acts later
  refine ⟨fun p t i hi hc => ?_, fun y hy index commit hanswer => ?_⟩
  · obtain ⟨w, hwt, hsettled⟩ := h.settled_of_commits hc
    obtain ⟨e, he⟩ := exists_entryAt hi hsettled.le_length
    have hsettled' := g.settled List.prefix_rfl (Nat.le_refl w) hsettled
    refine ⟨e, he, fun q u htu hl => ?_, fun q u hc' => ?_⟩
    · -- what was settled is in the log of every leader of that term or a later one
      obtain ⟨hleader, hledger⟩ := h'.leader_of_leads hl
      have hpre := h'.protocol.record.prefix_of_settled hsettled' (w := u)
        (by rw [hleader]; simp) (Nat.le_trans hwt htu)
      rw [hledger] at hpre
      exact entryAt_of_isPrefix hpre (by rwa [entryAt_take (Nat.le_refl i)])
    · -- two settled parts agree as far as both go
      obtain ⟨w', -, hother⟩ := h'.settled_of_commits hc'
      rw [Log.get?_eq_entryAt, ← h'.protocol.record.entryAt_eq_of_settled hsettled' hother
        (Nat.le_refl i) (Nat.le_refl i)]
      exact he
  · have := h.replies y hy
    rw [hanswer] at this
    exact this

theorem state_machine_safety_of_trio :
    (run trio strict (electFirst ++ commitFirst)).Commits 1 1 1
      ∧ (run trio strict (electFirst ++ commitFirst ++ [.role 2])).Leads 1 1
      ∧ (run trio strict (electFirst ++ commitFirst ++ [.role 2])).Commits 2 1 1
      ∧ ∃ e, ((run trio strict (electFirst ++ commitFirst)).log 1).get? 1 = some e
        ∧ ((run trio strict (electFirst ++ commitFirst ++ [.role 2])).log 1).get? 1 = some e
        ∧ ((run trio strict (electFirst ++ commitFirst ++ [.role 2])).log 2).get? 1 = some e := by
  obtain ⟨hc, hl, hc'⟩ : (run trio strict (electFirst ++ commitFirst)).Commits 1 1 1
      ∧ (run trio strict (electFirst ++ commitFirst ++ [.role 2])).Leads 1 1
      ∧ (run trio strict (electFirst ++ commitFirst ++ [.role 2])).Commits 2 1 1 :=
    of_decide_eq_true (by cbv)
  obtain ⟨e, he, hleads, hcommits⟩ := (state_machine_safety trio strict
    (electFirst ++ commitFirst) [.role 2]).1 1 1 1 (Nat.le_refl 1) hc
  exact ⟨hc, hl, hc', e, he, hleads 1 1 (Nat.le_refl 1) hl, hcommits 2 1 hc'⟩

/-! ## Commands -/

/-- No two places of a log carry the same request of a client. -/
theorem Sound.distinct (h : Sound members n r) (p : NodeId) :
    (n.log p).entries.Pairwise fun a b => ¬ a.SameRequest b := by
  obtain ⟨t, -, hpre⟩ := (h.core p).copied
  rw [core_log] at hpre
  exact (h.protocol.record.term t).distinct.sublist hpre.sublist

/-- **No duplicate commands.** Two entries of a log that carry the same sequence number of the same
client are one. -/
theorem no_duplicate_commands (cluster : List Member) (whole : NodeId → Bool) (acts : List Act)
    (p : NodeId) {i j : Nat} {a b : Entry} {c d : Command}
    (ha : ((run cluster whole acts).log p).get? i = some a)
    (hb : ((run cluster whole acts).log p).get? j = some b) (hc : a.payload = .command c)
    (hd : b.payload = .command d) (hclient : c.client = d.client)
    (hsequence : c.sequence = d.sequence) : i = j := by
  obtain ⟨r, -, h, -, -⟩ := exists_sound cluster whole acts []
  exact Protocol.entryAt_inj_of_distinct (h.distinct p) ha hb ⟨c, d, hc, hd, hclient, hsequence⟩

theorem no_duplicate_commands_of_trio :
    ((run trio strict (electFirst ++ commitFirst)).log 2).get? 2
        = some ⟨2, 1, .command ⟨"client", 1, [7]⟩⟩ ∧ (2 : Nat) = 2 := by
  have h : ((run trio strict (electFirst ++ commitFirst)).log 2).get? 2
      = some ⟨2, 1, .command ⟨"client", 1, [7]⟩⟩ := by cbv
  exact ⟨h, no_duplicate_commands trio strict (electFirst ++ commitFirst) 2 h h rfl rfl rfl rfl⟩

end Raft.Network
