import Raft.Proofs.Apply.Applier
import Raft.Proofs.Node.Committed
import Raft.Proofs.Solo.WriteAhead

/-!
# The committed part of a log

A node by itself, among others that may send it anything: from its start to its crash its log keeps
what it has committed, however its role changes and however often others overwrite what it has not.

* `Server.Firm s`: the node of a server is intact, and in order while the event loop runs.
* `Solo.Sustains n n'`: an act leaves a firm server, which upholds what was committed.
* `committed_prefix_immutable` is the result.
-/

namespace Raft

open Node.Outline (Intact Upholds)

theorem Event.InOrder.withCaller {e : Event} (h : e.InOrder) (c : Caller) :
    (e.withCaller c).InOrder := by
  cases e <;> exact h

/-! ## The apply loop -/

/-- Nothing is told to the loop, and nothing applied, beyond an index. -/
def Applier.Within (a : Applier) (commit : Nat) : Prop :=
  a.commit ≤ commit ∧ a.lastApplied ≤ commit

namespace ApplySchedule

variable {c : ApplySchedule} {a : Applier} {log : Log} {commit i : Nat}

theorem within_conclude (a : Applier) (e : Entry) (r : Option CommitResult) (b : Applier)
    (ha : a.Within commit) (_ : entryAt log.entries (a.lastApplied + 1) = some e)
    (hindex : e.index = a.lastApplied + 1) (hlt : a.lastApplied < a.commit)
    (hx : a.Executed e r b) : (b.conclude e r).Within commit := by
  have htold := ha.1
  have hcommit := hx.commit_eq
  constructor
  · show b.commit ≤ commit
    omega
  · show e.index ≤ commit
    omega

theorem round_within (hl : Positioned log.entries) (ha : a.Within commit) :
    (c.round log a).2.Within commit := round_keeps hl within_conclude ha

theorem signal_within (hl : Positioned log.entries) (ha : a.Within commit) (hi : i ≤ commit) :
    (c.signal log a i).2.Within commit :=
  signal_keeps hl within_conclude ha ⟨Nat.max_le.2 ⟨ha.1, hi⟩, ha.2⟩

end ApplySchedule

/-! ## Servers -/

namespace Server

variable {s t : Server} {w : Work}

/-- The node of a server is intact, and in order while the event loop runs. -/
structure Firm (s : Server) : Prop where
  intact : s.node.outline.Intact
  running : s.isRunning = true → s.node.outline.Firm

/-- The server goes on as another one, which upholds what was committed. -/
def Sustains (s t : Server) : Prop := t.Firm ∧ s.node.outline.Upholds t.node.outline

theorem handle_sustains (hfirm : (w.outline s.node).Firm)
    (hidle : w = .tick ∨ (∃ e, w = .event e) → s.node.outline.queue = [])
    (hevent : ∀ e, w = .event e → e.InOrder) :
    (s.handle w).Firm ∧ (w.outline s.node).Upholds (s.handle w).node.outline := by
  have h := Work.run_upholds hfirm hidle hevent
  unfold Action.Ensures at h
  unfold handle
  cases hrun : w.run.run s.node with
  | ok a n =>
    rw [hrun] at h
    exact ⟨⟨h.1.toIntact, fun _ => h.1⟩, h.2⟩
  | error f n =>
    rw [hrun] at h
    have hstop : ∀ why, (stop { s with node := n } why).Firm := fun why =>
      ⟨{ h.intact with }, fun hrun => absurd hrun Bool.false_ne_true⟩
    cases f with
    | overflow => exact ⟨hstop _, { h.upholds with }⟩
    | error e =>
      dsimp only [Action.outcome]
      split
      · exact ⟨hstop _, { h.upholds with }⟩
      · rename_i he
        have hn := h.firm ⟨e, rfl, by simpa using he⟩
        exact ⟨⟨hn.toIntact, fun _ => hn⟩, h.upholds⟩

namespace Firm

variable (h : s.Firm)
include h

theorem self : s.Sustains s := ⟨h, Upholds.refl _⟩

theorem workFree (hw : w = .tick ∨ ∃ e, w = .event e) (hevent : ∀ e, w = .event e → e.InOrder) :
    s.Sustains (Network.workFree w s) := by
  unfold Network.workFree
  split
  · rename_i hfree
    rw [Bool.and_eq_true, List.isEmpty_iff] at hfree
    have hn := h.running hfree.1
    rcases hw with rfl | ⟨e, rfl⟩
    · exact handle_sustains hn (fun _ => hfree.2) hevent
    · exact handle_sustains hn (fun _ => hfree.2) hevent
  · exact h.self

theorem workRole : s.Sustains (Network.workRole s) := by
  unfold Network.workRole
  split
  · rename_i e queue hqueue
    split
    · rename_i hrun
      have ho : (Work.role e).outline { s.node with queue } = s.node.outline := by
        show { s.node.outline with queue := e :: queue } = s.node.outline
        rw [← hqueue]
        rfl
      have hn := h.running hrun
      rw [← ho] at hn
      have hhandle := handle_sustains (s := { s with node := { s.node with queue } }) hn
        (by rintro (hw | ⟨x, hw⟩) <;> cases hw) (fun x hx => by cases hx)
      rwa [ho] at hhandle
    · exact h.self
  · exact h.self

theorem applier {a : Applier} {signals : List Nat}
    (ht : t.node = { s.node with applier := a, signals }) (hended : t.ended = s.ended)
    (hsignals : signals ⊆ s.node.signals)
    (ha : a.Within s.node.commit) : s.Sustains t := by
  have hintact : t.node.outline.Intact := by
    rw [ht]
    exact
      { positioned := h.intact.positioned
        le_length := h.intact.le_length
        signals := fun i hi => h.intact.signals i (hsignals hi)
        told := ha.1
        applied := ha.2 }
  refine ⟨⟨hintact, fun hrun => ?_⟩, ?_⟩
  · unfold isRunning at hrun
    rw [hended] at hrun
    have hn := h.running hrun
    refine { hintact with queue := ?_, opened := ?_ }
    · rw [ht]
      exact hn.queue
    · rw [ht]
      exact hn.opened
  · rw [ht]
    exact Upholds.of_log rfl (Nat.le_refl _)

theorem applyRound : s.Sustains (Network.applyRound s) :=
  h.applier rfl rfl (List.Subset.refl _)
    (ApplySchedule.round_within h.intact.positioned ⟨h.intact.told, h.intact.applied⟩)

theorem takeSignal : s.Sustains (Network.takeSignal s) := by
  unfold Network.takeSignal
  split
  · rename_i i signals hsignals
    have hi : i ≤ s.node.commit := by
      apply h.intact.signals
      show i ∈ s.node.signals
      rw [hsignals]
      exact List.mem_cons_self ..
    refine h.applier rfl rfl ?_
      (ApplySchedule.signal_within h.intact.positioned ⟨h.intact.told, h.intact.applied⟩ hi)
    rw [hsignals]
    exact List.subset_cons_self ..
  · exact h.self

theorem withdraw (request : String) : s.Sustains (Network.withdraw request s) :=
  h.applier rfl rfl (List.Subset.refl _) ⟨h.intact.told, h.intact.applied⟩

theorem setClock (now : Nat) : s.Sustains (s.setClock now) :=
  ⟨⟨{ h.intact with }, fun hrun => { h.running hrun with }⟩, Upholds.of_log rfl (Nat.le_refl _)⟩

end Firm

/-- A server that was just started has committed what its state machine had applied. -/
theorem firm_start {settings : Settings} {storage : Node.Remains} {window now : Nat} {seed : Seed}
    (hlog : Positioned storage.log.entries) (hlast : storage.machine.last ≤ storage.log.lastIndex)
    (h : Server.start settings true (.ok storage) window now seed = .ok s) : s.Firm := by
  obtain ⟨-, -, -, sessions, -, ho⟩ := start_cases h
  have hfirm : s.node.outline.Firm := by
    rw [ho]
    exact
      { positioned := hlog
        le_length := hlast
        signals := by simp
        told := Nat.zero_le _
        applied := Nat.le_refl _
        queue := .nil
        opened := rfl }
  exact ⟨hfirm.toIntact, fun _ => hfirm⟩

end Server

/-! ## Acts -/

namespace Solo

variable {n n' n'' : Solo}

/-- The server of a node is firm; one that is down left a log that its state machine is not ahead
of. -/
def Firm (n : Solo) : Prop :=
  match n.site with
  | .up s => s.Firm
  | .down r => Positioned r.log.entries ∧ r.machine.last ≤ r.log.lastIndex

/-- What happened left a firm server, which upholds what was committed. -/
def Sustains (n n' : Solo) : Prop :=
  n'.Firm ∧ ∀ s, n.server? = some s →
    ∃ t, n'.server? = some t ∧ s.node.outline.Upholds t.node.outline

/-- An append request that comes in has its entries in order. -/
def Act.InOrder : Act → Prop
  | .event e => e.InOrder
  | _ => True

theorem firm_up {s : Server} (hs : n.site = .up s) : n.Firm ↔ s.Firm := by
  unfold Firm
  rw [hs]

theorem Sustains.refl (h : n.Firm) : n.Sustains n := ⟨h, fun s hs => ⟨s, hs, Upholds.refl _⟩⟩

theorem Sustains.trans (h : n.Sustains n') (h' : n'.Sustains n'') : n.Sustains n'' := by
  refine ⟨h'.1, fun s hs => ?_⟩
  obtain ⟨t, ht, hup⟩ := h.2 s hs
  obtain ⟨u, hu, hup'⟩ := h'.2 t ht
  exact ⟨u, hu, hup.trans hup'⟩

theorem sustains_onServer (h : n.Firm) {f : Server → Server}
    (hf : ∀ s : Server, s.Firm → s.Sustains (f s)) : n.Sustains (n.onServer f) := by
  unfold onServer
  split
  · rename_i s hs
    obtain ⟨hfirm, hup⟩ := hf s ((firm_up hs).1 h)
    refine ⟨⟨{ hfirm.intact with }, fun hrun => { hfirm.running hrun with }⟩, fun x hx => ?_⟩
    unfold server? at hx
    rw [hs] at hx
    obtain rfl := Option.some.inj hx
    exact ⟨_, rfl, { hup with }⟩
  · exact Sustains.refl h

theorem sustains_start (h : n.Firm) (settings : Settings) (window now : Nat) (seed : Seed)
    (fresh : Bool) : n.Sustains (n.start settings window now seed fresh) := by
  unfold start
  split
  · exact Sustains.refl h
  · rename_i r hr
    have hdown : Positioned r.log.entries ∧ r.machine.last ≤ r.log.lastIndex := by
      unfold Firm at h
      rwa [hr] at h
    dsimp only
    split
    · rename_i s hs
      refine ⟨?_, fun x hx => ?_⟩
      · cases fresh with
        | false => exact Server.firm_start hdown.1 hdown.2 hs
        | true =>
          have hlog : Positioned r.withFreshMachine.log.entries := hdown.1
          exact Server.firm_start hlog (Nat.zero_le _) hs
      · unfold server? at hx
        rw [hr] at hx
        cases hx
    · exact Sustains.refl h

theorem sustains_disturb (h : n.Firm) (faults : LogFaults) (saves : Option Nat) (broken : Bool) :
    n.Sustains (n.onStore (Network.disturb faults saves broken)) := by
  unfold onStore
  split
  · rename_i s hs
    have hs' := (firm_up hs).1 h
    refine ⟨⟨{ hs'.intact with }, fun hrun => { hs'.running hrun with }⟩, fun x hx => ?_⟩
    unfold server? at hx
    rw [hs] at hx
    obtain rfl := Option.some.inj hx
    exact ⟨_, rfl, Upholds.of_log rfl (Nat.le_refl _)⟩
  · rename_i r hr
    have hdown : Positioned r.log.entries ∧ r.machine.last ≤ r.log.lastIndex := by
      unfold Firm at h
      rwa [hr] at h
    refine ⟨hdown, fun x hx => ?_⟩
    unfold server? at hx
    rw [hr] at hx
    cases hx

/-- **One act**, which is not a crash. -/
theorem sustains_step (h : n.Firm) {a : Act} (hcrash : a ≠ .crash) (ha : a.InOrder) :
    n.Sustains (n.step a) := by
  cases a with
  | start settings window now seed fresh => exact sustains_start h settings window now seed fresh
  | crash => exact absurd rfl hcrash
  | role => exact sustains_onServer h fun _ hs => hs.workRole
  | tick =>
    refine sustains_onServer h fun _ hs => hs.workFree (.inl rfl) fun e he => ?_
    cases he
  | event e =>
    refine sustains_onServer (n := n.receive e) h fun _ hs => hs.workFree (.inr ⟨_, rfl⟩) ?_
    rintro _ ⟨⟩
    exact Event.InOrder.withCaller ha _
  | signal => exact sustains_onServer h fun _ hs => hs.takeSignal
  | round => exact sustains_onServer h fun _ hs => hs.applyRound
  | withdraw request => exact sustains_onServer h fun _ hs => hs.withdraw request
  | setClock now => exact sustains_onServer h fun _ hs => hs.setClock now
  | disturb faults saves broken => exact sustains_disturb h faults saves broken

/-- **Any number of acts.** -/
theorem sustains_steps (h : n.Firm) {acts : List Act} (hacts : ∀ a ∈ acts, a ≠ .crash ∧ a.InOrder) :
    n.Sustains (n.steps acts) := by
  induction acts generalizing n with
  | nil => exact Sustains.refl h
  | cons a acts ih =>
    obtain ⟨⟨hcrash, ha⟩, hrest⟩ := List.forall_mem_cons.1 hacts
    have hstep := sustains_step h hcrash ha
    exact hstep.trans (ih hstep.1 hrest)

/-! ## Runs -/

/-- **The committed part of a log is immutable.** A node starts over a log whose entries stand at
their indexes and that its state machine is not ahead of. Until it crashes, whatever comes in and
whatever fails: it applies no more than it has committed and commits no more than its log holds, its
commit index does not fall, and an entry that is committed stays where it is. -/
theorem committed_prefix_immutable (r : Node.Remains) (hlog : Positioned r.log.entries)
    (hlast : r.machine.last ≤ r.log.lastIndex) (acts later : List Act)
    (hacts : ∀ a ∈ acts ++ later, a ≠ .crash ∧ a.InOrder) {s : Server}
    (hs : (run r acts).server? = some s) :
    s.node.applier.lastApplied ≤ s.node.commit ∧ s.node.commit ≤ s.node.log.lastIndex
      ∧ ∃ t, (run r (acts ++ later)).server? = some t ∧ s.node.commit ≤ t.node.commit
        ∧ ∀ i, 1 ≤ i → i ≤ s.node.commit →
          ∃ e, s.node.log.get? i = some e ∧ t.node.log.get? i = some e := by
  have hdown : ({ site := .down r } : Solo).Firm := ⟨hlog, hlast⟩
  obtain ⟨hbefore, hafter⟩ := List.forall_mem_append.1 hacts
  have hfirm := (sustains_steps hdown hbefore).1
  obtain ⟨t, ht, hup⟩ := (sustains_steps hfirm hafter).2 s hs
  have hintact : s.node.outline.Intact := by
    unfold server? at hs
    split at hs
    · rename_i x hx
      obtain rfl := Option.some.inj hs
      exact ((firm_up hx).1 hfirm).intact
    · cases hs
  refine ⟨hintact.applied, hintact.le_length, t, ?_, hup.commit_le, fun i hi hle => ?_⟩
  · rw [run_append]
    exact ht
  · obtain ⟨e, he⟩ := exists_entryAt hi (Nat.le_trans hle hintact.le_length)
    exact ⟨e, he, (entryAt_congr hup.take_eq hle).trans he⟩

/-- A node takes two entries, commits the first one and applies it. -/
def takeTwo : List Act :=
  [startOne, .event (.appendRequest ⟨1, 2, 0, 0, [.noop 1 1, .noop 2 1], 1⟩ 0), .role, .signal]

/-- Another leader puts its own entry in the place of the second one, and has it committed. -/
def overwriteSecond : List Act := [.event (.appendRequest ⟨2, 3, 1, 1, [.noop 2 2], 2⟩ 0)]

theorem committed_prefix_immutable_of_takeTwo :
    Positioned ({} : Node.Remains).log.entries
      ∧ ({} : Node.Remains).machine.last ≤ ({} : Node.Remains).log.lastIndex
      ∧ (∀ a ∈ takeTwo ++ overwriteSecond, a ≠ .crash ∧ a.InOrder)
      ∧ ∃ s t, (run {} takeTwo).server? = some s
        ∧ (run {} (takeTwo ++ overwriteSecond)).server? = some t
        ∧ s.node.applier.lastApplied = 1 ∧ s.node.commit = 1 ∧ s.node.log.lastIndex = 2
        ∧ ∃ e, s.node.log.get? 1 = some e ∧ t.node.log.get? 1 = some e := by
  have hlog : Positioned ({} : Node.Remains).log.entries := positioned_nil
  have hacts : ∀ a ∈ takeTwo ++ overwriteSecond, a ≠ .crash ∧ a.InOrder := by
    simp [takeTwo, overwriteSecond, startOne, Act.InOrder, Event.InOrder, consecutive_cons,
      consecutive_nil, Entry.noop]
  have hlook : (run {} takeTwo).server?.any (fun s => s.node.applier.lastApplied == 1
      && s.node.commit == 1 && s.node.log.lastIndex == 2) = true := by decide +kernel
  obtain ⟨s, hs, hfacts⟩ := Option.any_eq_true _ _ |>.1 hlook
  simp only [Bool.and_eq_true, beq_iff_eq] at hfacts
  obtain ⟨⟨happlied, hcommit⟩, hlast⟩ := hfacts
  obtain ⟨-, -, t, ht, -, hsame⟩ := committed_prefix_immutable {} hlog (Nat.le_refl _) takeTwo
    overwriteSecond hacts hs
  exact ⟨hlog, Nat.le_refl _, hacts, s, t, hs, ht, happlied, hcommit, hlast,
    hsame 1 (Nat.le_refl _) (Nat.le_of_eq hcommit.symm)⟩

end Solo

end Raft
