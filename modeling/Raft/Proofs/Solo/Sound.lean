import Raft.Proofs.Node.Loop
import Raft.Proofs.WriteAhead.Roles
import Raft.Proofs.Solo.Basic

/-!
# A node between two acts

Whatever happens to a node by itself, it has written what it made visible, and what it stores and
makes visible next comes after what it stored before.

* `Solo.Sound n`: the node has written before it spoke so far.
* `Solo.Continues n n'`: what it stored and made visible since came in order.
* `Solo.keeps_steps`: any number of acts keeps a node sound and goes on with it.
-/

namespace Raft

open HardState (Precedes)
open Node (Outline)

/-! ## Between two acts -/

theorem Event.isAmong_append {inbound : List Event} {e : Event} (h : e.IsAmong inbound)
    (x : Event) : e.IsAmong (inbound ++ [x]) := by
  intro c hc
  have := h c hc
  rw [List.getElem?_append_left (List.getElem?_eq_some_iff.1 this).1, this]

theorem Event.isAmong_withCaller (inbound : List Event) (e : Event) :
    (e.withCaller inbound.length).IsAmong (inbound ++ [e.withCaller inbound.length]) := by
  intro c hc
  have hlength : c = inbound.length := by
    cases e <;> simp [Event.withCaller, Event.caller?] at hc <;> exact hc.symm
  rw [hlength]
  simp

namespace Node

variable {inbound : List Event} {base : HardState} {n m : Node}

/-- A node whose effects were taken starts over from what it stores. -/
theorem Durable.rebase (h : n.Durable inbound base) (heffects : m.effects = [])
    (hqueue : m.queue = n.queue) :
    m.Durable inbound (m.stored.getD {}) := by
  constructor
  · exact Precedes.refl _
  · intro d hd
    rw [heffects] at hd
    cases hd
  · intro d hd
    rw [heffects] at hd
    cases hd
  · rw [heffects]
    exact List.Pairwise.nil
  · rw [hqueue]
    exact h.queue

theorem Written.not_failed (h : n.Written inbound base) : n.writeFailed ≠ true := by
  rw [h.unfailed]
  exact Bool.false_ne_true

end Node

namespace Server

variable {inbound : List Event} {base : HardState} {s : Server} {w : Work}

/-- A server at work, which held the hard state `base` when its effects were taken last. -/
structure Works (inbound : List Event) (base : HardState) (s : Server) : Prop where
  durable : s.node.Durable inbound base
  running : s.isRunning = true → s.node.Written inbound base
  ended : s.node.writeFailed = true → ∃ e, s.ended = some (.error e) ∧ e.isFatal = true

theorem Works.congr {t : Server} (h : s.Works inbound base) (hp : t.node.paper = s.node.paper)
    (he : t.ended = s.ended) : t.Works inbound base := by
  have hrun : t.isRunning = s.isRunning := by
    unfold isRunning
    rw [he]
  have hfailed : t.node.writeFailed = s.node.writeFailed :=
    congrArg (fun p => p.2.2.1) hp
  constructor
  · exact h.durable.congr hp
  · rw [hrun]
    intro hr
    exact (h.running hr).congr hp
  · rw [hfailed, he]
    exact h.ended

/-- **The loop handles something.** It goes on after it has written what it said, or it stops. -/
theorem Works.handle (h : s.Works inbound base) (hrun : s.isRunning = true)
    (hw : ∀ e, w = .event e ∨ w = .role (.replay e) → e.IsAmong inbound) :
    (s.handle w).Works inbound base := by
  have hkeeps := Work.run_keeps hw (h.running hrun)
  unfold Action.Ensures at hkeeps
  unfold Server.handle
  cases hx : w.run.run s.node with
  | ok a n =>
    rw [hx] at hkeeps
    obtain ⟨hn, -⟩ := hkeeps
    exact ⟨hn.toDurable, fun _ => hn, fun hf => absurd hf hn.not_failed⟩
  | error f n =>
    rw [hx] at hkeeps
    have hstop : ∀ d : n.Durable inbound base,
        ({ n with queue := [] } : Node).Durable inbound base := fun d => { d with queue := nofun }
    cases f with
    -- a sum out of range is no failed write
    | overflow =>
      have hn : n.Written inbound base := by
        rcases hkeeps with hn | ⟨-, e, he, -⟩
        · exact hn
        · cases he
      exact ⟨hstop hn.toDurable, nofun, fun hf => absurd hf hn.not_failed⟩
    | error e =>
      dsimp only [Action.outcome]
      by_cases he : e.isFatal = true
      · -- a write may have failed, but then the error is fatal and the loop ends
        rw [if_pos he]
        have hn : n.Durable inbound base := by
          rcases hkeeps with hn | ⟨hn, -⟩
          · exact hn.toDurable
          · exact hn
        exact ⟨hstop hn, nofun, fun _ => ⟨e, rfl, he⟩⟩
      · rw [if_neg he]
        have hn : n.Written inbound base := by
          rcases hkeeps with hn | ⟨-, e', he', hfatal⟩
          · exact hn
          · obtain rfl := Failure.error.inj he'
            exact absurd hfatal he
        exact ⟨hn.toDurable, fun _ => hn, fun hf => absurd hf hn.not_failed⟩

theorem Works.workFree (h : s.Works inbound base)
    (hw : ∀ e, w = .event e ∨ w = .role (.replay e) → e.IsAmong inbound) :
    (Network.workFree w s).Works inbound base := by
  unfold Network.workFree
  by_cases hc : (s.isRunning && s.node.queue.isEmpty) = true
  · rw [if_pos hc]
    rw [Bool.and_eq_true] at hc
    exact h.handle hc.1 hw
  · rw [if_neg hc]
    exact h

theorem Works.workRole (h : s.Works inbound base) : (Network.workRole s).Works inbound base := by
  unfold Network.workRole
  split
  · rename_i e queue hqueue
    by_cases hrun : s.isRunning = true
    · rw [if_pos hrun]
      have hsub : ∀ x, RoleEvent.replay x ∈ queue → x.IsAmong inbound := by
        intro x hx
        apply h.durable.queue
        rw [hqueue]
        exact List.mem_cons_of_mem _ hx
      have hs : ({ s with node := { s.node with queue } } : Server).Works inbound base := by
        constructor
        · exact { h.durable with queue := hsub }
        · intro _
          exact { h.running hrun with queue := hsub }
        · exact h.ended
      apply hs.handle hrun
      rintro x (hx | hx)
      · cases hx
      · apply h.durable.queue
        rw [hqueue, Work.role.inj hx]
        exact List.mem_cons_self ..
    · rw [if_neg hrun]
      exact h
  · exact h

theorem workFree_of_ended (h : s.ended.isSome = true) : Network.workFree w s = s := by
  unfold Network.workFree isRunning
  rw [if_neg]
  simp [Option.isNone_eq_false_iff.2 h]

theorem workRole_of_ended (h : s.ended.isSome = true) : Network.workRole s = s := by
  unfold Network.workRole isRunning
  split
  · rw [if_neg]
    simp [Option.isNone_eq_false_iff.2 h]
  · rfl

end Server

namespace Solo

variable {n n' n'' : Solo} {s : Server} {t : Nat} {x y : NodeId}

/-- The node has written before it spoke, and nothing is left to be taken. -/
structure Sound (n : Solo) : Prop where
  history : ∀ d ∈ n.history, d.WrittenAhead n.inbound
  works : ∀ s, n.site = .up s → s.Works n.inbound n.stored
  taken : ∀ s, n.site = .up s → s.node.effects = [] ∧ s.node.applier.answers = []

/-- The node goes on: what it stores and makes visible comes after what it stored before. -/
structure Continues (n n' : Solo) : Prop where
  inbound : n.inbound <+: n'.inbound
  stored : n.stored.Precedes n'.stored
  history : ∃ new, n'.history = n.history ++ new
    ∧ (∀ d ∈ new, n.stored.Precedes d.hard ∧ d.hard.Precedes n'.stored)
    ∧ new.Pairwise fun a b => a.hard.Precedes b.hard

theorem Continues.refl (n : Solo) : n.Continues n :=
  ⟨List.prefix_rfl, Precedes.refl _, [], by simp⟩

theorem Continues.trans (a : n.Continues n') (b : n'.Continues n'') : n.Continues n'' := by
  obtain ⟨new, hnew, hbetween, hrising⟩ := a.history
  obtain ⟨new', hnew', hbetween', hrising'⟩ := b.history
  refine ⟨a.inbound.trans b.inbound, a.stored.trans b.stored, new ++ new', ?_, ?_, ?_⟩
  · rw [hnew', hnew, List.append_assoc]
  · intro d hd
    rcases List.mem_append.1 hd with hd | hd
    · obtain ⟨h1, h2⟩ := hbetween d hd
      exact ⟨h1, h2.trans b.stored⟩
    · obtain ⟨h1, h2⟩ := hbetween' d hd
      exact ⟨a.stored.trans h1, h2⟩
  · rw [List.pairwise_append]
    refine ⟨hrising, hrising', ?_⟩
    intro d hd d' hd'
    exact (hbetween d hd).2.trans (hbetween' d' hd').1

/-- An act that keeps the node sound and goes on with it. -/
def Keeps (n n' : Solo) : Prop := n'.Sound ∧ n.Continues n'

theorem keeps_settle (h : n.Sound) (hs : s.Works n.inbound n.stored) : n.Keeps (n.settle s) := by
  have hstored : (n.settle s).stored = s.node.stored.getD {} := rfl
  have hdurable := hs.durable.rebase (m := s.takeEffects.2.node) rfl rfl
  constructor
  · constructor
    · intro d hd
      rcases List.mem_append.1 hd with hd | hd
      · exact h.history d hd
      · exact hs.durable.ahead d hd
    · rintro _ ⟨⟩
      refine ⟨hdurable, fun hrun => ?_, hs.ended⟩
      have hw := hs.running hrun
      exact { toDurable := hdurable, stored := hw.stored, unfailed := hw.unfailed }
    · rintro _ ⟨⟩
      exact ⟨rfl, rfl⟩
  · refine ⟨List.prefix_rfl, ?_, s.node.effects, rfl, ?_, hs.durable.rising⟩
    · rw [hstored]
      exact hs.durable.precedes
    · rw [hstored]
      exact hs.durable.between

theorem keeps_self (h : n.Sound) : n.Keeps n := ⟨h, Continues.refl n⟩

theorem keeps_onServer (h : n.Sound) {f : Server → Server}
    (hf : ∀ s, s.Works n.inbound n.stored → (f s).Works n.inbound n.stored) :
    n.Keeps (n.onServer f) := by
  unfold onServer
  split
  · rename_i s hs
    exact keeps_settle h (hf s (h.works s hs))
  · exact keeps_self h

theorem keeps_receive (h : n.Sound) (e : Event) : n.Keeps (n.receive e) := by
  have hinbound : n.inbound <+: (n.receive e).inbound := List.prefix_append _ _
  have hstored : (n.receive e).stored = n.stored := rfl
  have hdurable : ∀ m : Node, m.effects = [] → m.Durable n.inbound n.stored →
      m.Durable (n.receive e).inbound n.stored := by
    intro m hm hd
    refine { hd with ahead := ?_, queue := ?_ }
    · intro d hmem
      rw [hm] at hmem
      cases hmem
    · intro x hx
      exact Event.isAmong_append (hd.queue x hx) _
  constructor
  · constructor
    · intro d hd
      exact (h.history d hd).mono hinbound
    · intro s hs
      obtain ⟨heffects, -⟩ := h.taken s hs
      have hw := h.works s hs
      rw [hstored]
      refine ⟨hdurable _ heffects hw.durable, fun hrun => ?_, hw.ended⟩
      have hwritten := hw.running hrun
      exact
        { toDurable := hdurable _ heffects hw.durable
          stored := hwritten.stored
          unfailed := hwritten.unfailed }
    · exact h.taken
  · exact ⟨hinbound, Precedes.refl _, [], by simp [receive]⟩

theorem keeps_site (h : n.Sound) {site : Network.Site}
    (hstored : ({ n with site } : Solo).stored = n.stored)
    (hworks : ∀ s, site = .up s → s.Works n.inbound n.stored)
    (htaken : ∀ s, site = .up s → s.node.effects = [] ∧ s.node.applier.answers = []) :
    n.Keeps { n with site } := by
  constructor
  · refine ⟨h.history, ?_, htaken⟩
    rw [hstored]
    exact hworks
  · refine ⟨List.prefix_rfl, ?_, [], by simp⟩
    rw [hstored]
    exact Precedes.refl _

theorem keeps_start (h : n.Sound) (settings : Settings) (window now : Nat) (seed : Seed)
    (fresh : Bool) : n.Keeps (n.start settings window now seed fresh) := by
  unfold start
  split
  · exact keeps_self h
  · rename_i r hr
    dsimp only
    split
    · rename_i s hs
      have hstored : n.stored = r.stored.getD {} := by
        unfold Solo.stored
        rw [hr]
      obtain ⟨-, hrun, hunfailed, sessions, -, ho⟩ := Server.start_cases hs
      have hremains : (if fresh then r.withFreshMachine else r).stored = r.stored := by
        cases fresh <;> rfl
      have hs' : s.node.stored = r.stored := by
        rw [← hremains]
        exact congrArg Outline.stored ho
      have hhard : s.node.hard = r.stored.getD {} := by
        rw [← hremains]
        exact congrArg Outline.hard ho
      have heffects : s.node.effects = [] := List.map_eq_nil_iff.1 (congrArg Outline.effects ho)
      have hqueue : s.node.queue = [] := congrArg Outline.queue ho
      have hanswers : s.node.applier.answers = [] :=
        congrArg (fun o : Outline => o.applier.answers) ho
      apply keeps_site h
      · rw [hstored, ← hs']
        rfl
      · rintro _ ⟨⟩
        have hdurable : s.node.Durable n.inbound n.stored := by
          rw [hstored, ← hs']
          constructor
          · exact Precedes.refl _
          · simp [heffects]
          · simp [heffects]
          · simp [heffects]
          · simp [hqueue]
        constructor
        · exact hdurable
        · intro _
          exact ⟨hdurable, by rw [hs', hhard], hunfailed⟩
        · rw [hunfailed]
          exact nofun
      · rintro _ ⟨⟩
        exact ⟨heffects, hanswers⟩
    · exact keeps_self h

theorem keeps_crash (h : n.Sound) : n.Keeps n.crash := by
  unfold crash
  split
  · rename_i s hs
    apply keeps_site h
    · unfold Solo.stored
      rw [hs]
      rfl
    · rintro _ ⟨⟩
    · rintro _ ⟨⟩
  · exact keeps_self h

theorem keeps_disturb (h : n.Sound) (faults : LogFaults) (saves : Option Nat) (broken : Bool) :
    n.Keeps (n.onStore (Network.disturb faults saves broken)) := by
  unfold onStore
  split
  · rename_i s hs
    apply keeps_site h
    · unfold Solo.stored
      rw [hs]
      rfl
    · rintro _ ⟨⟩
      exact (h.works s hs).congr rfl rfl
    · rintro _ ⟨⟩
      exact h.taken s hs
  · rename_i r hr
    apply keeps_site h
    · unfold Solo.stored
      rw [hr]
      rfl
    · rintro _ ⟨⟩
    · rintro _ ⟨⟩

theorem keeps_step (h : n.Sound) (a : Act) : n.Keeps (n.step a) := by
  cases a with
  | start settings window now seed fresh => exact keeps_start h settings window now seed fresh
  | crash => exact keeps_crash h
  | role => exact keeps_onServer h fun s hs => hs.workRole
  | tick =>
    apply keeps_onServer h
    intro s hs
    apply hs.workFree
    rintro e (he | he) <;> cases he
  | event e =>
    obtain ⟨hreceive, hcontinues⟩ := keeps_receive h e
    have hhandle : (n.receive e).Keeps ((n.receive e).onServer
        (Network.workFree (.event (e.withCaller n.inbound.length)))) := by
      apply keeps_onServer hreceive
      intro s hs
      apply hs.workFree
      rintro x (hx | hx)
      · rw [← Work.event.inj hx]
        exact Event.isAmong_withCaller n.inbound e
      · cases hx
    exact ⟨hhandle.1, hcontinues.trans hhandle.2⟩
  | signal =>
    apply keeps_onServer h
    intro s hs
    unfold Network.takeSignal
    split
    · exact hs.congr rfl rfl
    · exact hs
  | round => exact keeps_onServer h fun s hs => hs.congr rfl rfl
  | withdraw request => exact keeps_onServer h fun s hs => hs.congr rfl rfl
  | setClock now => exact keeps_onServer h fun s hs => hs.congr rfl rfl
  | disturb faults saves broken => exact keeps_disturb h faults saves broken

theorem keeps_steps (h : n.Sound) (acts : List Act) : n.Keeps (n.steps acts) := by
  induction acts generalizing n with
  | nil => exact keeps_self h
  | cons a acts ih =>
    obtain ⟨hsound, hcontinues⟩ := keeps_step h a
    obtain ⟨hsound', hcontinues'⟩ := ih hsound
    exact ⟨hsound', hcontinues.trans hcontinues'⟩

end Solo

end Raft
