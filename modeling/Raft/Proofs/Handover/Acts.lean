import Raft.Proofs.Handover.Loop
import Raft.Proofs.Network.Runs
import Raft.Proofs.Solo.Turns

/-!
# Handing over in a run

What an act can do to a node by itself, whatever comes in, and to a member of a cluster.

* `Server.Ready s`: what is needed of a server before it handles something.
* `Solo.handover n`, `Network.handover n p`: what is seen of a node, with all it ever asked.
* `Solo.hands_run`, `Network.passes_run`: one act after any others.
-/

namespace Raft

open Handover (Prepares Goes)
open Network (Site)
open Node (stepsDown)

/-! ## Servers -/

namespace Server

variable {s : Server} {w : Work}

/-- A server that may handle what comes next: it can queue role events, and what it kept for later
is a request, or it does not step down after it. -/
structure Ready (s : Server) : Prop where
  opened : s.isRunning = true → s.node.profile.closed = false
  replays : s.isRunning = true → ∀ e rest, s.node.queue = .replay e :: rest →
    e.IsRequest ∨ rest.any stepsDown = false

theorem workFree_goes (h : s.Ready) :
    (Site.up s).handover.Goes w.source (Site.up (Network.workFree w s)).handover := by
  unfold Network.workFree
  split
  · rename_i hfree
    rw [Bool.and_eq_true, List.isEmpty_iff] at hfree
    rw [handover_of_running hfree.1]
    refine handle_goes hfree.1 (h.opened hfree.1) fun e _ => Or.inr ?_
    show s.node.queue.any stepsDown = false
    rw [hfree.2]
    rfl
  · exact Goes.refl _ _

theorem workRole_goes (h : s.Ready) :
    ∃ src, (Site.up s).handover.Goes src (Site.up (Network.workRole s)).handover := by
  unfold Network.workRole
  split
  · rename_i e queue hqueue
    split
    · rename_i hrun
      refine ⟨(Work.role e).source, ?_⟩
      have hgoes := handle_goes (s := { s with node := { s.node with queue } }) (w := .role e) hrun
        (h.opened hrun) fun x hx => by
          cases e with
          | replay y =>
            obtain rfl := Option.some.inj hx
            exact h.replays hrun y queue hqueue
          | _ => cases hx
      rw [handover_of_running hrun]
      exact Goes.of_leads (t := ({ s.node with queue } : Node).handover.leads) hgoes
    · exact ⟨none, Goes.refl _ _⟩
  · exact ⟨none, Goes.refl _ _⟩

theorem takeSignal_handover (s : Server) :
    (Site.up (Network.takeSignal s)).handover = (Site.up s).handover := by
  unfold Network.takeSignal
  split <;> rfl

theorem start_effects {settings : Settings} {storage : Node.Remains} {window now : Nat}
    {seed : Seed} (h : Server.start settings true (.ok storage) window now seed = .ok s) :
    s.node.effects = [] := by
  obtain ⟨-, -, -, sessions, -, ho⟩ := start_cases h
  exact List.map_eq_nil_iff.1 (congrArg Node.Outline.effects ho)

end Server

namespace Handover

/-- A node that starts has no transfer under way, and asked nobody since. -/
theorem goes_of_down (r : Node.Remains) {h : Handover}
    {before : List (NodeId × TimeoutNowRequest)} :
    { (Site.down r).handover with asks := before }.Goes none { h with asks := before } :=
  Or.inl (.free rfl rfl nofun)

theorem goes_of_crash (s : Server) {before : List (NodeId × TimeoutNowRequest)} :
    { (Site.up s).handover with asks := before }.Goes none
      { (Site.down s.node.remains).handover with asks := before } := by
  by_cases hx : (Site.up s).handover.transfer = none
  · exact Or.inl (.free hx rfl nofun)
  · exact Or.inl (.stays hx ⟨rfl, Nat.zero_le _, rfl, nofun, fun hne => absurd rfl hne⟩)

end Handover

/-! ## A node by itself -/

namespace Solo

variable {n : Solo} {src : Option Event} {f : Server → Server}

/-- What is seen of a node by itself, with all it ever asked. -/
def handover (n : Solo) : Handover :=
  { n.site.handover with asks := n.history.filterMap fun d => d.effect.asked? }

theorem hands_onServer (hsound : n.Sound)
    (hf : ∀ s, n.site = .up s → (Site.up s).handover.Goes src (Site.up (f s)).handover) :
    n.handover.Goes src (n.onServer f).handover := by
  unfold onServer
  split
  · rename_i s hs
    have hgoes := (hf s hs).after (n.history.filterMap fun d => d.effect.asked?)
    have hbefore : (Site.up s).handover.asks = [] := by
      show s.node.effects.filterMap _ = []
      rw [(hsound.taken s hs).1]
      rfl
    rw [hbefore, List.append_nil] at hgoes
    have hafter : (n.settle (f s)).handover
        = { (Site.up (f s)).handover with
          asks := (n.history.filterMap fun d => d.effect.asked?)
            ++ (Site.up (f s)).handover.asks } := by
      unfold handover settle
      dsimp only
      rw [List.filterMap_append]
      rfl
    rw [hafter]
    unfold handover
    rw [hs]
    exact hgoes
  · exact Goes.refl _ _

theorem ready_of_steady (h : n.Steady) {s : Server} (hs : n.site = .up s) : s.Ready := by
  refine ⟨fun hrun => h.opened _ (phase_of_running hs hrun), fun hrun e rest hqueue => Or.inl ?_⟩
  refine h.replays _ (phase_of_running hs hrun) e ?_
  show _ ∈ s.node.queue
  rw [hqueue]
  exact List.mem_cons_self ..

theorem hands_still (hsound : n.Sound)
    (hf : ∀ s, (Site.up (f s)).handover = (Site.up s).handover) :
    n.handover.Goes none (n.onServer f).handover := by
  refine hands_onServer hsound fun s _ => ?_
  rw [hf s]
  exact Goes.refl none _

theorem hands_start (settings : Settings) (window now : Nat) (seed : Seed) (fresh : Bool) :
    n.handover.Goes none (n.start settings window now seed fresh).handover := by
  unfold start
  split
  · exact Goes.refl _ _
  · rename_i r hr
    dsimp only
    split
    · unfold handover
      rw [hr]
      exact Handover.goes_of_down r
    · exact Goes.refl _ _

theorem hands_crash (n : Solo) : n.handover.Goes none n.crash.handover := by
  unfold crash
  split
  · rename_i s hs
    unfold handover
    rw [hs]
    exact Handover.goes_of_crash s
  · exact Goes.refl _ _

theorem hands_disturb (n : Solo) (faults : LogFaults) (saves : Option Nat) (broken : Bool) :
    n.handover.Goes none (n.onStore (Network.disturb faults saves broken)).handover := by
  have hsame : (n.onStore (Network.disturb faults saves broken)).handover = n.handover := by
    unfold onStore handover
    split <;> rename_i hs <;> rw [hs] <;> rfl
  rw [hsame]
  exact Goes.refl _ _

theorem hands_event (h : n.Steady) (hsound : n.Sound) (e : Event) :
    n.handover.Goes (some (e.withCaller n.inbound.length)) (n.step (.event e)).handover :=
  hands_onServer (n := n.receive e) (keeps_receive hsound e).1 fun _ hs =>
    Server.workFree_goes (w := .event (e.withCaller n.inbound.length)) (ready_of_steady h hs)

theorem hands_step (h : n.Steady) (hsound : n.Sound) (a : Act) :
    ∃ src, n.handover.Goes src (n.step a).handover := by
  cases a with
  | start settings window now seed fresh => exact ⟨none, hands_start settings window now seed fresh⟩
  | crash => exact ⟨none, hands_crash n⟩
  | role =>
    cases hs : n.site with
    | up s =>
      obtain ⟨src, hgoes⟩ := Server.workRole_goes (ready_of_steady h hs)
      refine ⟨src, hands_onServer hsound fun t ht => ?_⟩
      obtain rfl := Site.up.inj (hs.symm.trans ht)
      exact hgoes
    | down r => exact ⟨none, hands_onServer hsound fun t ht => by rw [hs] at ht; cases ht⟩
  | tick =>
    exact ⟨none, hands_onServer hsound fun s hs =>
      Server.workFree_goes (w := .tick) (ready_of_steady h hs)⟩
  | event e => exact ⟨_, hands_event h hsound e⟩
  | signal => exact ⟨none, hands_still hsound Server.takeSignal_handover⟩
  | round => exact ⟨none, hands_still hsound fun _ => rfl⟩
  | withdraw request => exact ⟨none, hands_still hsound fun _ => rfl⟩
  | setClock now => exact ⟨none, hands_still hsound fun _ => rfl⟩
  | disturb faults saves broken => exact ⟨none, hands_disturb n faults saves broken⟩

theorem hands_run (r : Node.Remains) (acts : List Act) (a : Act) :
    ∃ src, (run r acts).handover.Goes src (run r (acts ++ [a])).handover := by
  rw [run_append]
  exact hands_step (steady_run r acts) (sound_run r acts) a

end Solo

/-! ## The members of a cluster -/

namespace Network

variable {members : List NodeId} {n n' : Network} {r : Protocol.Record} {p : NodeId}
  {src : Option Event} {f : Server → Server}

/-- The request to take over that a letter of a member carries, with its target. -/
def Letter.asked? (p : NodeId) (l : Letter) : Option (NodeId × TimeoutNowRequest) :=
  match l.request with
  | .timeoutNow q => if l.source = p then some (l.target, q) else none
  | _ => none

def handover (n : Network) (p : NodeId) : Handover :=
  { (n.site p).handover with asks := n.sent.filterMap (Letter.asked? p) }

/-- What every server made visible is taken. -/
def Taken (n : Network) : Prop := ∀ p s, n.site p = .up s → s.node.effects = []

/-- What an act can do to the members. -/
structure Passes (n n' : Network) : Prop where
  taken : n'.Taken
  sent : n.sent <+: n'.sent
  goes : ∀ p, ∃ src, (n.handover p).Goes src (n'.handover p)

theorem Passes.refl (h : n.Taken) : Passes n n :=
  ⟨h, List.prefix_rfl, fun _ => ⟨none, Goes.refl _ _⟩⟩

theorem Passes.of_call {x : Call} (h : Passes (n.call x) n') : Passes n n' :=
  ⟨h.taken, h.sent, h.goes⟩

/-- The letters of a server are those that its event loop sent. -/
theorem asked_effects (s : Server) (p q : NodeId) :
    (s.takeEffects.1.filterMap fun e => e.request?.map fun x => (⟨p, x.1, x.2⟩ : Letter)).filterMap
        (Letter.asked? q)
      = if q = p then (Site.up s).handover.asks else [] := by
  have hletter : ∀ e : Effect, (e.request?.map fun x => (⟨p, x.1, x.2⟩ : Letter)).bind
      (Letter.asked? q) = if q = p then e.asked? else none := by
    intro e
    unfold Effect.asked? Effect.request? Letter.asked?
    cases e with
    | answer caller a => simp
    | send target x =>
      cases x with
      | timeoutNow y => simp [eq_comm]
      | vote | append => simp
  have hanswers : (s.node.applier.answers.map fun a => Effect.answer a.1 (.client a.2)).filterMap
      (fun e => if q = p then e.asked? else none) = [] := by
    rw [List.filterMap_eq_nil_iff]
    intro e he
    obtain ⟨a, -, rfl⟩ := List.mem_map.1 he
    exact ite_self none
  rw [List.filterMap_filterMap]
  simp only [hletter]
  show (s.node.effects.map Departure.effect ++ _).filterMap _ = _
  rw [List.filterMap_append, hanswers, List.append_nil, List.filterMap_map]
  by_cases hq : q = p
  · simp only [if_pos hq]
    rfl
  · simp [hq]

/-- A server goes on, and what it made visible is taken. -/
theorem handover_settle (s : Server) (q : NodeId) :
    (n.settle p s).handover q
      = if q = p then { (Site.up s).handover with
          asks := n.sent.filterMap (Letter.asked? p) ++ (Site.up s).handover.asks }
        else n.handover q := by
  unfold handover settle
  dsimp only
  rw [List.filterMap_append, asked_effects]
  by_cases hq : q = p
  · subst hq
    rw [Function.update_self, if_pos rfl, if_pos rfl]
    rfl
  · rw [Function.update_of_ne hq, if_neg hq, if_neg hq, List.append_nil]

theorem goes_onServer (htaken : n.Taken)
    (hf : ∀ s, n.site p = .up s → (Site.up s).handover.Goes src (Site.up (f s)).handover)
    (q : NodeId) : (n.handover q).Goes src ((n.onServer p f).handover q) := by
  unfold onServer
  split
  · rename_i s hs
    rw [handover_settle]
    by_cases hq : q = p
    · subst hq
      have hgoes := (hf s hs).after (n.sent.filterMap (Letter.asked? q))
      have hbefore : (Site.up s).handover.asks = [] := by
        show s.node.effects.filterMap _ = []
        rw [htaken q s hs]
        rfl
      rw [hbefore, List.append_nil] at hgoes
      rw [if_pos rfl]
      unfold handover
      rw [hs]
      exact hgoes
    · rw [if_neg hq]
      exact Goes.refl src _
  · exact Goes.refl src _

theorem passes_onServer (htaken : n.Taken)
    (hf : ∀ s, n.site p = .up s →
      ∃ src, (Site.up s).handover.Goes src (Site.up (f s)).handover) :
    Passes n (n.onServer p f) where
  taken := by
    unfold onServer
    split
    · intro q s hs
      by_cases hq : q = p
      · subst hq
        obtain rfl := Site.up.inj ((Function.update_self ..).symm.trans hs)
        rfl
      · exact htaken q s ((Function.update_of_ne hq ..).symm.trans hs)
    · exact htaken
  sent := by
    unfold onServer
    split
    · exact List.prefix_append _ _
    · exact List.prefix_rfl
  goes q := by
    cases hs : n.site p with
    | up s =>
      obtain ⟨src, hgoes⟩ := hf s hs
      refine ⟨src, goes_onServer htaken (fun t ht => ?_) q⟩
      obtain rfl := Site.up.inj (hs.symm.trans ht)
      exact hgoes
    | down x => exact ⟨none, goes_onServer htaken (fun t ht => by rw [hs] at ht; cases ht) q⟩

theorem passes_still (htaken : n.Taken)
    (hf : ∀ s, (Site.up (f s)).handover = (Site.up s).handover) : Passes n (n.onServer p f) :=
  passes_onServer htaken fun s _ => ⟨none, by rw [hf s]; exact Goes.refl none _⟩

theorem passes_put (htaken : n.Taken) {x : Site} (hx : ∀ s, x = .up s → s.node.effects = [])
    (hgoes : ∃ src, ∀ before, { (n.site p).handover with asks := before }.Goes src
      { x.handover with asks := before }) : Passes n (n.put p x) where
  taken q s hs := by
    by_cases hq : q = p
    · subst hq
      rw [put_site_self] at hs
      exact hx s hs
    · rw [put_site_of_ne n x hq] at hs
      exact htaken q s hs
  sent := List.prefix_rfl
  goes q := by
    unfold handover
    by_cases hq : q = p
    · subst hq
      obtain ⟨src, hgoes⟩ := hgoes
      rw [put_site_self]
      exact ⟨src, hgoes _⟩
    · rw [put_site_of_ne n x hq]
      exact ⟨none, Goes.refl none _⟩

theorem passes_start (htaken : n.Taken) (cluster : List Member) (settings : Settings)
    (window now : Nat) (seed : Seed) (fresh : Bool) :
    Passes n (n.start cluster p settings window now seed fresh) := by
  unfold start
  split
  · exact .refl htaken
  · rename_i x hx
    split
    · dsimp only
      split
      · rename_i s hs
        have hput : Passes (n.equip window) ((n.equip window).put p (.up s)) := by
          refine passes_put (n := n.equip window) htaken (fun t ht => ?_)
            ⟨none, fun before => ?_⟩
          · rw [← Site.up.inj ht]
            exact Server.start_effects hs
          · rw [show (n.equip window).site p = .down x from hx]
            exact Handover.goes_of_down x
        exact ⟨hput.taken, hput.sent, hput.goes⟩
      · exact .refl htaken
    · exact .refl htaken

theorem passes_crash (htaken : n.Taken) (p : NodeId) : Passes n (n.crash p) := by
  unfold crash
  split
  · rename_i s hs
    refine passes_put htaken (fun _ ht => by cases ht) ⟨none, fun before => ?_⟩
    rw [hs]
    exact Handover.goes_of_crash s
  · exact .refl htaken

theorem passes_disturb (htaken : n.Taken) (p : NodeId) (faults : LogFaults) (saves : Option Nat)
    (broken : Bool) : Passes n (n.onStore p (disturb faults saves broken)) := by
  unfold onStore
  split
  · rename_i s hs
    refine passes_put htaken (fun t ht => ?_) ⟨none, fun before => ?_⟩
    · rw [← Site.up.inj ht]
      exact htaken p s hs
    · rw [hs]
      exact Goes.refl none _
  · rename_i x hx
    refine passes_put htaken (fun _ ht => by cases ht) ⟨none, fun before => ?_⟩
    rw [hx]
    exact Goes.refl none _

namespace Sound

variable (h : Sound members n r)
include h

/-- What a server of a cluster keeps for later it handles when it has stepped down. -/
theorem ready {s : Server} (hs : n.site p = .up s) : s.Ready := by
  refine ⟨fun hrun => (h.placed hs hrun).fits.opened, fun hrun e rest hqueue => Or.inr ?_⟩
  have horder := (h.placed hs hrun).fits.queue
  rw [show s.node.outline.queue = .replay e :: rest from hqueue] at horder
  cases horder with
  | replay => rfl

theorem passes_work (htaken : n.Taken) (w : Work) : Passes n (n.work p w) :=
  passes_onServer htaken fun _ hs => ⟨_, Server.workFree_goes (h.ready hs)⟩

end Sound

theorem goes_transfer {cluster : List Member} (h : Sound (cluster.map Member.id) n r)
    (htaken : n.Taken) (p target : NodeId) :
    (n.handover p).Goes (some (.transfer target n.nextCaller))
      ((n.step cluster (.transfer p target)).handover p) :=
  goes_onServer (n := n.call .operator) htaken (fun _ hs => Server.workFree_goes
    (w := .event (.transfer target n.nextCaller)) (h.ready hs)) p

theorem passes_step {cluster : List Member} (h : Sound (cluster.map Member.id) n r)
    (htaken : n.Taken) (a : Act) : Passes n (n.step cluster a) := by
  -- a caller that is taken asks nobody
  have hcall : ∀ (x : Call) (p : NodeId) (w : Work), Passes n ((n.call x).work p w) :=
    fun x p w => Passes.of_call (x := x) (passes_onServer htaken fun _ hs =>
      ⟨_, Server.workFree_goes (h.ready hs)⟩)
  cases a with
  | start p settings window now seed fresh =>
    exact passes_start htaken cluster settings window now seed fresh
  | crash p => exact passes_crash htaken p
  | role p => exact passes_onServer htaken fun _ hs => Server.workRole_goes (h.ready hs)
  | tick p => exact h.passes_work htaken _
  | request k =>
    simp only [step]
    split
    · exact hcall _ _ _
    · exact .refl htaken
  | result k =>
    simp only [step]
    split
    · unfold pass
      split
      · exact h.passes_work htaken _
      · exact .refl htaken
    · exact .refl htaken
  | failure k e =>
    simp only [step]
    split
    · exact h.passes_work htaken _
    · exact .refl htaken
  | propose p q request =>
    show Passes n (n.propose p q request)
    unfold propose
    split
    · exact hcall _ _ _
    · exact .refl htaken
  | transfer p target => exact hcall _ _ _
  | signal p => exact passes_still htaken Server.takeSignal_handover
  | round p => exact passes_still htaken fun _ => rfl
  | withdraw p request => exact passes_still htaken fun _ => rfl
  | setClock p now => exact passes_still htaken fun _ => rfl
  | disturb p faults saves broken => exact passes_disturb htaken p faults saves broken

/-- What the servers of a cluster made visible is always taken. -/
theorem taken_run (cluster : List Member) (whole : NodeId → Bool) (acts : List Act) :
    (run cluster whole acts).Taken := by
  induction acts using List.reverseRecOn with
  | nil =>
    intro p s hs
    have hdown : Site.down { log := { whole := whole p } } = .up s := hs
    cases hdown
  | append_singleton acts a ih =>
    obtain ⟨r, -, h, -, -⟩ := exists_sound cluster whole acts []
    rw [run_append]
    exact (passes_step h ih a).taken

theorem passes_run (cluster : List Member) (whole : NodeId → Bool) (acts : List Act) (a : Act) :
    Passes (run cluster whole acts) (run cluster whole (acts ++ [a])) := by
  obtain ⟨r, -, h, -, -⟩ := exists_sound cluster whole acts []
  rw [run_append]
  exact passes_step h (taken_run cluster whole acts) a

end Network

end Raft
