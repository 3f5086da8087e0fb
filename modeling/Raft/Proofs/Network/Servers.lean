import Raft.Proofs.Settings
import Raft.Proofs.Network.Moves

/-!
# What one member does

Each thing that can happen to a member keeps it in agreement with what the cluster has done: handling
something, rounds of its apply loop, faults, a crash and a start over what is left.

* `Continues members n r p s`: the cluster may go on with `s` in the place of the member `p`.
-/

namespace Raft

open Node (Outline Placed)
open Protocol (Core Record Step)

namespace Network

variable {members : List NodeId} {n : Network} {r : Record} {p : NodeId} {s s' : Server}

/-- The cluster may go on with another site in the place of a member. -/
def Continues (members : List NodeId) (n : Network) (r : Record) (p : NodeId) (s : Site) : Prop :=
  ∃ r', r.Grows r' ∧ Protocol.Sound members (Function.update n.cores p s.core) r'
    ∧ s.Fits (n.past members r') p ∧ (n.past members r').Origin

theorem Site.core_up (hrun : s.isRunning = true) : (Site.up s).core = s.node.outline.core :=
  if_pos hrun

theorem Site.core_ended (hrun : s.isRunning = false) :
    (Site.up s).core = s.node.outline.restCore := if_neg (by rw [hrun]; exact Bool.false_ne_true)

/-- Whether the event loop runs matters for the term, the vote and the phase alone. -/
theorem Site.core_log (s : Server) : (Site.up s).core.log = s.node.log.entries := by
  cases hrun : s.isRunning with
  | true => rw [Site.core_up hrun]; rfl
  | false => rw [Site.core_ended hrun]; rfl

theorem Site.core_commit (s : Server) : (Site.up s).core.commit = s.node.commit := by
  cases hrun : s.isRunning with
  | true => rw [Site.core_up hrun]; rfl
  | false => rw [Site.core_ended hrun]; rfl

theorem Site.fits_up {past : Past} (hrun : s.isRunning = true) :
    (Site.up s).Fits past p ↔ s.node.outline.Fits past p := by
  unfold Site.Fits
  dsimp only
  rw [if_pos hrun]

theorem Site.fits_ended {past : Past} (hrun : s.isRunning = false) :
    (Site.up s).Fits past p ↔ s.node.outline.Rests past p := by
  unfold Site.Fits
  dsimp only
  rw [if_neg (by rw [hrun]; exact Bool.false_ne_true)]

/-- A server agrees with the past at least as far as it matters when it has ended. -/
theorem Site.Fits.rests {past : Past} (h : (Site.up s).Fits past p) :
    s.node.outline.Rests past p := by
  cases hrun : s.isRunning with
  | true => exact ((Site.fits_up hrun).1 h).toRests
  | false => exact (Site.fits_ended hrun).1 h

theorem log_of_up (hs : n.site p = .up s) : n.log p = s.node.log := by
  unfold log
  rw [hs]

theorem core_log (n : Network) (p : NodeId) : (n.site p).core.log = (n.log p).entries := by
  unfold log
  cases hsite : n.site p with
  | up s => exact Site.core_log s
  | down x => rfl

namespace Sound

variable (h : Sound members n r)
include h

theorem core (p : NodeId) : (n.site p).core.Sound members r p := h.protocol.core p

theorem placed (hs : n.site p = .up s) (hrun : s.isRunning = true) :
    Placed n.cores (n.past members r) p s.node.outline where
  sound := by
    have hcore : s.node.outline.core = n.cores p := by
      unfold cores
      rw [hs, Site.core_up hrun]
    rw [hcore, Function.update_eq_self]
    exact h.protocol
  fits := by
    have := h.site p
    rwa [hs, Site.fits_up hrun] at this
  origin := h.origin

theorem rests (hs : n.site p = .up s) : s.node.outline.Rests (n.past members r) p := by
  have := h.site p
  rw [hs] at this
  exact this.rests

theorem covers (p : NodeId) : r.Covers (n.log p).entries := by
  have hcovers := (h.core p).covers h.protocol.record
  rwa [core_log] at hcovers

theorem positioned (p : NodeId) : Positioned (n.log p).entries := (h.covers p).positioned

theorem continues_self : Continues members n r p (n.site p) := by
  refine ⟨r, Record.Grows.refl r, ?_, h.site p, h.origin⟩
  rw [show (n.site p).core = n.cores p from rfl, Function.update_eq_self]
  exact h.protocol

end Sound

/-! ## The event loop -/

theorem expects_of_knows {past : Past} {o : Outline} {e : Event} (h : o.Fits past p)
    (he : past.Knows p e) : o.Expects e := by
  cases e with
  | appendResult peer =>
    obtain ⟨hpeer, hne, -⟩ := he
    refine ⟨?_, ?_⟩
    · rwa [h.members]
    · rwa [h.self]
  | _ => trivial

theorem continues_handle {w : Work} (hrun : s.isRunning = true)
    (hplaced : Placed n.cores (n.past members r) p (w.outline s.node)) (hdue : w.IsDue s.node)
    (hsrc : ∀ e, w.source = some e → (n.past members r).Knows p e) :
    Continues members n r p (.up (s.handle w)) := by
  have hopen : s.node.outline.closed = false := by
    cases w <;> exact hplaced.fits.opened
  rcases s.handle_cases hopen hdue with ⟨hended, -, hmoves⟩ | ⟨hended, -, hbreaks⟩
  · obtain ⟨r', g, hplaced'⟩ := Node.Moves.simulates hplaced hsrc hmoves
    have hrun' : (s.handle w).isRunning = true := by
      unfold Server.isRunning
      rwa [hended]
    refine ⟨r', g, ?_, (Site.fits_up hrun').2 hplaced'.fits, hplaced'.origin⟩
    rw [Site.core_up hrun']
    exact hplaced'.sound
  · obtain ⟨r', g, hsound, hrests, horigin⟩ := Node.Breaks.simulates hplaced hsrc hbreaks
    have hrun' : (s.handle w).isRunning = false := by
      unfold Server.isRunning
      rw [Option.isNone_eq_false_iff]
      exact hended
    refine ⟨r', g, ?_, (Site.fits_ended hrun').2 hrests, horigin⟩
    rw [Site.core_ended hrun']
    exact hsound

/-- What waits first in a queue may be handled, and what it is about is on record. -/
theorem due_of_orderly {past : Past} {o : Outline} {e : RoleEvent} {queue : List RoleEvent}
    {node : Node} (h : o.Fits past p) (hqueue : o.queue = e :: queue)
    (ho : (Work.role e).outline node = o) :
    (Work.role e).IsDue node ∧ ∀ x, (Work.role e).source = some x → past.Knows p x := by
  have horder := h.queue
  have hrest : node.outline.queue = queue := by
    have : e :: node.outline.queue = o.queue := congrArg Outline.queue ho
    rw [hqueue] at this
    exact (List.cons.inj this).2
  have hexpects : ∀ x, past.Knows p x → node.outline.Expects x := by
    intro x hx
    have := expects_of_knows h hx
    rw [← ho] at this
    cases x <;> exact this
  rw [hqueue] at horder
  cases horder with
  | inform | yield | postpone => exact ⟨trivial, nofun⟩
  | replay x hx =>
    refine ⟨⟨hrest, hexpects x hx⟩, fun y hy => ?_⟩
    obtain rfl := Option.some.inj hy
    exact hx
  | stand | lead => exact ⟨hrest, nofun⟩

namespace Sound

variable (h : Sound members n r)
include h

theorem continues_work (hs : n.site p = .up s) {w : Work} (hw : ∀ e, w ≠ .role e)
    (hsrc : ∀ e, w.source = some e → (n.past members r).Knows p e) :
    Continues members n r p
      (.up (if s.isRunning && s.node.queue.isEmpty then s.handle w else s)) := by
  split
  · rename_i hc
    rw [Bool.and_eq_true, List.isEmpty_iff] at hc
    obtain ⟨hrun, hqueue⟩ := hc
    have hplaced := h.placed hs hrun
    refine continues_handle hrun ?_ ?_ hsrc
    · cases w with
      | role e => exact absurd rfl (hw e)
      | tick | event => exact hplaced
    · cases w with
      | role e => exact absurd rfl (hw e)
      | tick => exact hqueue
      | event e => exact ⟨hqueue, expects_of_knows hplaced.fits (hsrc e rfl)⟩
  · rw [← hs]
    exact h.continues_self

theorem continues_workRole (hs : n.site p = .up s) :
    Continues members n r p (.up (workRole s)) := by
  have hself := h.continues_self (p := p)
  rw [hs] at hself
  unfold workRole
  split
  · rename_i e queue hqueue
    split
    · rename_i hrun
      have hplaced := h.placed hs hrun
      have ho : (Work.role e).outline { s.node with queue } = s.node.outline := by
        show { s.node.outline with queue := e :: queue } = s.node.outline
        rw [← hqueue]
        rfl
      obtain ⟨hdue, hsrc⟩ := due_of_orderly hplaced.fits hqueue ho
      refine continues_handle (s := { s with node := { s.node with queue } }) hrun ?_ hdue hsrc
      rwa [ho]
    · exact hself
  · exact hself

/-! ## The apply loop -/

/-- A server whose node differs in the apply loop and its signals only. -/
theorem continues_applier (hs : n.site p = .up s) {a : Applier} {signals : List Nat}
    (hended : s'.ended = s.ended)
    (ho : s'.node.outline = { s.node.outline with applier := a, signals })
    (ha : a.Sound s.node.log.entries s.node.commit)
    (hserves : (n.past members r).Serves s.node.log.entries a s.node.outline.effects)
    (hsignals : signals ⊆ s.node.signals) : Continues members n r p (.up s') := by
  have hrests := h.rests hs
  have hrests' : Outline.Rests (n.past members r) p
      { s.node.outline with applier := a, signals } :=
    { hrests with
      signals := fun i hi => hrests.signals i (hsignals hi)
      applier := ha
      serves := hserves }
  have hrun : s'.isRunning = s.isRunning := by
    unfold Server.isRunning
    rw [hended]
  have hcore : (Site.up s').core = n.cores p := by
    unfold cores
    rw [hs]
    unfold Site.core
    dsimp only
    rw [hrun, ho]
    rfl
  refine ⟨r, Record.Grows.refl r, ?_, ?_, h.origin⟩
  · rw [hcore, Function.update_eq_self]
    exact h.protocol
  · cases hrunning : s.isRunning with
    | true =>
      rw [Site.fits_up (hrun.trans hrunning), ho]
      have hfits := (h.placed hs hrunning).fits
      exact { hfits with toRests := hrests' }
    | false =>
      rw [Site.fits_ended (hrun.trans hrunning), ho]
      exact hrests'

theorem applier (hs : n.site p = .up s) : s.node.applier.Sound s.node.log.entries s.node.commit :=
  (h.rests hs).applier

theorem serves (hs : n.site p = .up s) :
    (n.past members r).Serves s.node.log.entries s.node.applier s.node.outline.effects :=
  (h.rests hs).serves

theorem concludes (hs : n.site p = .up s) (a : Applier) (e : Entry) (x : Option CommitResult)
    (b : Applier)
    (ha : a.Sound s.node.log.entries s.node.commit
      ∧ (n.past members r).Serves s.node.log.entries a s.node.outline.effects)
    (he : entryAt s.node.log.entries (a.lastApplied + 1) = some e)
    (hindex : e.index = a.lastApplied + 1) (hlt : a.lastApplied < a.commit)
    (hx : a.Executed e x b) :
    (b.conclude e x).Sound s.node.log.entries s.node.commit
      ∧ (n.past members r).Serves s.node.log.entries (b.conclude e x) s.node.outline.effects := by
  obtain ⟨hsound, hserves⟩ := ha
  have hcovers := h.covers p
  rw [log_of_up hs] at hcovers
  constructor
  · exact hsound.conclude he hindex hlt hx
  · exact hserves.conclude hcovers hsound.remembers he hindex hx

theorem continues_takeSignal (hs : n.site p = .up s) :
    Continues members n r p (.up (takeSignal s)) := by
  have hpositioned := h.positioned p
  rw [log_of_up hs] at hpositioned
  unfold takeSignal
  split
  · rename_i i signals hsignals
    have hi : i ≤ s.node.commit := by
      refine (h.rests hs).signals i ?_
      show i ∈ s.node.signals
      rw [hsignals]
      exact List.mem_cons_self ..
    obtain ⟨hsound, hserves⟩ := ApplySchedule.signal_keeps (s := s.schedule) (i := i) hpositioned
      (h.concludes hs) ⟨h.applier hs, h.serves hs⟩
      ⟨(h.applier hs).signal hi, { h.serves hs with }⟩
    refine h.continues_applier hs rfl rfl hsound hserves ?_
    rw [hsignals]
    exact List.subset_cons_self _ _
  · rw [← hs]
    exact h.continues_self

theorem continues_applyRound (hs : n.site p = .up s) :
    Continues members n r p (.up (applyRound s)) := by
  have hpositioned := h.positioned p
  rw [log_of_up hs] at hpositioned
  obtain ⟨hsound, hserves⟩ := ApplySchedule.round_keeps (s := s.schedule) hpositioned
    (h.concludes hs) ⟨h.applier hs, h.serves hs⟩
  exact h.continues_applier hs rfl rfl hsound hserves (List.Subset.refl _)

/-! ## Clocks, callers and faults -/

theorem continues_withdraw (hs : n.site p = .up s) (request : String) :
    Continues members n r p (.up (withdraw request s)) := by
  refine h.continues_applier hs rfl rfl { h.applier hs with } ?_ (List.Subset.refl _)
  apply (h.serves hs).await
  intro i x hx
  exact (h.serves hs).waiters i x (Waiters.has_cancel hx)

theorem continues_setClock (hs : n.site p = .up s) (now : Nat) :
    Continues members n r p (.up (s.setClock now)) :=
  h.continues_applier hs rfl rfl { h.applier hs with } { h.serves hs with } (List.Subset.refl _)

theorem continues_disturb (hs : n.site p = .up s) (faults : LogFaults) (saves : Option Nat)
    (broken : Bool) : Continues members n r p
      (.up { s with node := s.node.withRemains (disturb faults saves broken s.node.remains) }) := by
  have hserves := h.serves hs
  refine h.continues_applier hs rfl rfl { h.applier hs with } ?_ (List.Subset.refl _)
  refine { hserves with follows := ?_ }
  intro window hw
  exact (hserves.follows window hw).congr rfl rfl rfl

/-! ## Crashes and starts -/

/-- What is left may be less of the commit index, as far as the state machine goes. -/
theorem continues_down (x : Node.Remains) (hstored : x.stored.getD {} = (n.cores p).hard)
    (hlog : x.log.entries = (n.cores p).log) (hlast : x.machine.last ≤ (n.cores p).commit)
    (hleaves : Leaves (n.past members r) x) : Continues members n r p (.down x) := by
  have hsound := h.protocol
  rw [← Function.update_eq_self p n.cores] at hsound
  obtain ⟨hsound, g⟩ := Node.sound_update hsound (Step.rest x.machine.last hlast)
  refine ⟨r, g, ?_, hleaves, h.origin⟩
  rw [← hstored, ← hlog] at hsound
  exact hsound

theorem continues_crash (hs : n.site p = .up s) :
    Continues members n r p (.down s.node.remains) := by
  have ha := h.applier hs
  have hlast : s.node.applier.machine.last ≤ s.node.commit := Nat.le_trans ha.last ha.applied
  have hcores : n.cores p = (Site.up s).core := congrArg Site.core hs
  have hpositioned := h.positioned p
  rw [log_of_up hs] at hpositioned
  refine h.continues_down s.node.remains ?_ ?_ ?_ ?_
  · rw [hcores]
    cases hrun : s.isRunning with
    | true =>
      rw [Site.core_up hrun]
      exact (h.placed hs hrun).fits.stored
    | false => rw [Site.core_ended hrun]; rfl
  · rw [hcores, Site.core_log]
    rfl
  · rw [hcores, Site.core_commit]
    exact hlast
  · -- what was applied after the last command changed nothing
    intro window hw
    exact ⟨_, ((h.serves hs).follows window hw).shrink hpositioned ha.last⟩

/-- The state machine of a member that is down has applied a part of its log. -/
theorem leaves {x : Node.Remains} (hx : n.site p = .down x) : Leaves (n.past members r) x := by
  have := h.site p
  rwa [hx] at this

end Sound

namespace Sound

/-- A member starts over what is left, with the settings of a member. -/
theorem continues_start (h : Sound members n r) {settings : Settings} {x storage : Node.Remains}
    {window now : Nat} {seed : Seed} (hx : n.site p = .down x)
    (hmembers : settings.cluster.members.map Member.id = members)
    (hnode : settings.cluster.node = p) (hstored : storage.stored = x.stored)
    (hlog : storage.log = x.log) (hlast : storage.machine.last ≤ x.machine.last)
    (hleaves : Leaves (n.past members r) storage) (hwindow : window ∈ n.windows)
    (hstart : Server.start settings true (.ok storage) window now seed = .ok s) :
    Continues members n r p (.up s) := by
  obtain ⟨hvalid, hrun, -, sessions, hsessions, ho⟩ := Server.start_cases hstart
  obtain ⟨hmem, hnodup⟩ := Settings.members_of_validate hvalid
  rw [hmembers] at hmem hnodup
  rw [hnode] at hmem
  have hpositioned : Positioned storage.log.entries := by
    rw [hlog, ← show n.log p = x.log by unfold log; rw [hx]]
    exact h.positioned p
  obtain ⟨hsound, hrecalls⟩ := Sessions.rebuild_recalls hsessions
  have hremembers := Applier.rebuild_remembers hpositioned hsessions
  have hcores : n.cores p = (Site.down x).core := congrArg Site.core hx
  -- what is left is a core that the protocol knows, with less of the commit index
  obtain ⟨r', g, hprotocol, hleaves', horigin⟩ := h.continues_down storage
    (by rw [hcores, hstored]; rfl) (by rw [hcores, hlog]; rfl) (by rw [hcores]; exact hlast) hleaves
  refine ⟨r', g, ?_, ?_, horigin⟩
  · rw [Site.core_up hrun, ho]
    exact hprotocol
  · rw [Site.fits_up hrun, ho]
    exact
      { term_le := Nat.le_refl _
        signals := nofun
        effects := nofun
        applier := ⟨Nat.zero_le _, Nat.le_refl _, Nat.le_refl _, hsound, hrecalls, hremembers⟩
        serves :=
          { waiters := fun _ _ hw => absurd hw Waiters.not_has_empty
            effects := nofun
            answers := nofun
            follows := by
              -- the table that is rebuilt is the one that the state machine goes with
              intro w hw
              obtain ⟨t, ht⟩ := hleaves' w hw
              obtain rfl := hw window hwindow
              rwa [ht.eq_of_rebuild hpositioned hsessions] }
        self := hnode
        members := hmembers
        voters := by
          show settings.cluster.members.length = members.length
          rw [← hmembers, List.length_map]
        mem := hmem
        nodup := hnodup
        stored := rfl
        opened := rfl
        tallied := nofun
        queue := .nil }

end Sound

end Network

end Raft
