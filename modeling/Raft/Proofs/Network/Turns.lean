import Raft.Proofs.Network.Basic
import Raft.Proofs.Tenure.Servers

/-!
# One member at a time

An act in a cluster is a turn of one member: its server makes a step and lets go of what it made
visible, or it crashes, or it starts again. The others stay as they are.

* `Network.Act.Takes n p a s src`: what the server of a member can take up in an act.
* `Network.Site.Turns`: a turn of a member, and what becomes visible.
* `Network.Settled`: between two acts nothing is left to be taken, and the role events that wait
  fit.
* `Network.Act.Moves n a n'`: an act is a turn of one member. `Network.Settled.turns`: every act is.
-/

namespace Raft.Network

variable {n n' : Network} {p q : NodeId} {a : Act} {s t : Server} {es : List Effect} {A B : Site}

/-! ## Turns -/

def lettersOf (p : NodeId) (es : List Effect) : List Letter :=
  es.filterMap fun e => e.request?.map fun x => ⟨p, x.1, x.2⟩

def repliesOf (p : NodeId) (es : List Effect) : List Reply :=
  es.filterMap fun e => e.answer?.map fun x => ⟨p, x.1, x.2⟩

/-- The events that an act brings to a member. -/
def Act.Brings (n : Network) (p : NodeId) : Act → Event → Prop
  | .request k, e => ∃ l, n.sent[k]? = some l ∧ l.target = p ∧ e = l.request.toEvent n.nextCaller
  | .result k, e => ∃ y l x, n.replies[k]? = some y ∧ n.callers[y.caller]? = some (.letter l)
    ∧ y.answer.response? = some x ∧ l.source = p ∧ e = l.request.resultEvent l.target x
  | .failure k x, e =>
    ∃ l, n.sent[k]? = some l ∧ l.source = p ∧ e = l.request.resultEvent l.target (.error x)
  | .propose p' q name, e => p' = p ∧ e = .propose q name n.nextCaller
  | .transfer p' target, e => p' = p ∧ e = .transfer target n.nextCaller
  | _, _ => False

/-- What the server of a member can take up in an act: what the act brings, if no role event waits,
or what waits. -/
def Act.Takes (n : Network) (p : NodeId) (a : Act) (s : Server) (src : Option Event) : Prop :=
  (∃ e, src = some e ∧ a.Brings n p e ∧ s.node.queue = [])
    ∨ (∃ e ∈ s.node.queue, src = (Work.role e).source) ∨ src = none

/-- A turn of a member, and what becomes visible. -/
inductive Site.Turns (Takes : Server → Option Event → Prop) : Site → List Effect → Site → Prop
  /-- Its server makes a step. -/
  | does {s t : Server} (Named : String → Prop) (h : s.Does (Takes s) Named t) :
    Turns Takes (.up s) t.takeEffects.1 (.up t.takeEffects.2)
  | falls (s : Server) : Turns Takes (.up s) [] (.down s.node.remains)
  | starts {r storage : Node.Remains} {settings : Settings} {window now : Nat} {seed : Seed}
    {s : Server} (h : Server.start settings true (.ok storage) window now seed = .ok s)
    (hstored : storage.stored = r.stored) (hlog : storage.log = r.log) :
    Turns Takes (.down r) [] (.up s)
  /-- Nothing happens but to the storage. -/
  | rests {r r' : Node.Remains} (hstored : r'.stored = r.stored)
    (hlog : r'.log.entries = r.log.entries) : Turns Takes (.down r) [] (.down r')

/-- A member had its turn, and the others did not. -/
structure Turned (n : Network) (p : NodeId) (es : List Effect) (B : Site) (n' : Network) :
    Prop where
  site : n'.site = Function.update n.site p B
  sent : n'.sent = n.sent ++ lettersOf p es
  replies : n'.replies = n.replies ++ repliesOf p es

theorem Turned.site_self (h : n.Turned p es B n') : n'.site p = B := by
  rw [h.site, Function.update_self]

theorem Turned.site_of_ne (h : n.Turned p es B n') (hq : q ≠ p) : n'.site q = n.site q := by
  rw [h.site, Function.update_of_ne hq]

/-! ## Between two acts -/

/-- Between two acts nothing is left to be taken, and the role events that wait fit. -/
structure Settled (n : Network) : Prop where
  taken : ∀ p s, n.site p = .up s → s.node.effects = [] ∧ s.node.applier.answers = []
  fits : ∀ p s, n.site p = .up s → s.isRunning = true → s.node.tenure.Fit

theorem Settled.said_eq_nil (h : n.Settled) (hs : n.site p = .up s) : s.node.tenure.said = [] :=
  List.map_eq_nil_iff.2 (h.taken p s hs).1

theorem settled_init (whole : NodeId → Bool) : (init whole).Settled where
  taken := by rintro p s ⟨⟩
  fits := by rintro p s ⟨⟩

/-- A step that makes nothing visible. -/
theorem Site.turns_of_silent {Takes : Server → Option Event → Prop} (Named : String → Prop)
    (h : s.Does (Takes s) Named t) (heffects : t.node.effects = [])
    (hanswers : t.node.applier.answers = []) : (Site.up s).Turns Takes [] (.up t) := by
  have hnothing : t.takeEffects.1 = [] := by
    show t.node.effects.map Departure.effect ++ t.node.applier.answers.map _ = []
    rw [heffects, hanswers]
    rfl
  have hturns : (Site.up s).Turns Takes t.takeEffects.1 (.up t.takeEffects.2) := .does Named h
  rwa [hnothing, Server.takeEffects_of_taken heffects hanswers] at hturns

theorem Turned.quiet (hsite : n'.site = Function.update n.site p B) (hsent : n'.sent = n.sent)
    (hreplies : n'.replies = n.replies) : n.Turned p [] B n' where
  site := hsite
  sent := by
    rw [hsent]
    exact (List.append_nil _).symm
  replies := by
    rw [hreplies]
    exact (List.append_nil _).symm

theorem Settled.still (h : n.Settled) (p : NodeId) (Takes : Server → Option Event → Prop) :
    ∃ es B, (n.site p).Turns Takes es B ∧ n.Turned p es B n := by
  refine ⟨[], n.site p, ?_, .quiet (Function.update_eq_self _ _).symm rfl rfl⟩
  cases hp : n.site p with
  | up s =>
    obtain ⟨heffects, hanswers⟩ := h.taken p s hp
    exact Site.turns_of_silent (fun _ => True) (Server.does_self s) heffects hanswers
  | down r => exact .rests rfl rfl

theorem Settled.onServer (h : n.Settled) {Takes : Server → Option Event → Prop}
    {f : Server → Server} (Named : String → Prop)
    (hf : ∀ s, n.site p = .up s → s.Does (Takes s) Named (f s)) :
    ∃ es B, (n.site p).Turns Takes es B ∧ n.Turned p es B (n.onServer p f) := by
  unfold Network.onServer
  cases hp : n.site p with
  | up s => exact ⟨_, _, .does Named (hf s hp), rfl, rfl, rfl⟩
  | down r =>
    have hstill := h.still p Takes
    rwa [hp] at hstill

theorem Settled.work (h : n.Settled) {m : Network} {w : Work} (hm : m.site = n.site)
    (hsent : m.sent = n.sent) (hreplies : m.replies = n.replies)
    (hw : w = .tick ∨ ∃ e, w = .event e) (hbrings : ∀ e, w = .event e → a.Brings n p e) :
    ∃ es B, (n.site p).Turns (a.Takes n p) es B ∧ n.Turned p es B (m.work p w) := by
  have hsettled : m.Settled := by
    constructor
    · rw [hm]
      exact h.taken
    · rw [hm]
      exact h.fits
  have hturn : ∃ es B, (m.site p).Turns (a.Takes n p) es B
      ∧ m.Turned p es B (m.onServer p (workFree w)) := by
    refine hsettled.onServer (fun _ => True) fun s hs => ?_
    refine Server.does_workFree (hsettled.fits p s hs) hw fun hqueue => ?_
    rcases hw with rfl | ⟨e, rfl⟩
    · exact Or.inr (Or.inr rfl)
    · exact Or.inl ⟨e, rfl, hbrings e rfl, hqueue⟩
  obtain ⟨es, B, hturns, hsite, hsent', hreplies'⟩ := hturn
  rw [hm] at hturns hsite
  rw [hsent] at hsent'
  rw [hreplies] at hreplies'
  exact ⟨es, B, hturns, hsite, hsent', hreplies'⟩

/-- An act was a turn of one member, and led to another cluster. -/
def Act.Moves (n : Network) (a : Act) (n' : Network) : Prop :=
  ∃ p es B, (n.site p).Turns (a.Takes n p) es B ∧ n.Turned p es B n'

section Moves

variable (h : n.Settled)
include h

theorem Settled.moves_self : a.Moves n n := ⟨0, h.still 0 _⟩

theorem Settled.moves_start (cluster : List Member) (settings : Settings) (window now : Nat)
    (seed : Seed) (fresh : Bool) :
    a.Moves n (n.start cluster p settings window now seed fresh) := by
  unfold Network.start
  split
  · exact h.moves_self
  · rename_i r hr
    split
    · dsimp only
      split
      · rename_i s hs
        refine ⟨p, [], .up s, ?_, .quiet rfl rfl rfl⟩
        rw [hr]
        refine .starts hs ?_ ?_ <;> cases fresh <;> rfl
      · exact h.moves_self
    · exact h.moves_self

theorem Settled.moves_crash : a.Moves n (n.crash p) := by
  unfold Network.crash
  split
  · rename_i s hs
    refine ⟨p, [], _, ?_, .quiet rfl rfl rfl⟩
    rw [hs]
    exact .falls s
  · exact h.moves_self

theorem Settled.moves_disturb (faults : LogFaults) (saves : Option Nat) (broken : Bool) :
    a.Moves n (n.onStore p (disturb faults saves broken)) := by
  unfold onStore
  split
  · rename_i s hs
    obtain ⟨heffects, hanswers⟩ := h.taken p s hs
    refine ⟨p, [], _, ?_, .quiet rfl rfl rfl⟩
    rw [hs]
    exact Site.turns_of_silent (fun _ => True) (Server.does_disturb faults saves broken)
      heffects hanswers
  · rename_i r hr
    refine ⟨p, [], _, ?_, .quiet rfl rfl rfl⟩
    rw [hr]
    exact .rests rfl rfl

/-- A caller is taken, and its request comes to a member. -/
theorem Settled.moves_call (x : Call) {e : Event} (hbrings : a.Brings n p e) :
    a.Moves n ((n.call x).work p (.event e)) := by
  refine ⟨p, h.work (m := n.call x) rfl rfl rfl (Or.inr ⟨e, rfl⟩) ?_⟩
  rintro _ ⟨⟩
  exact hbrings

/-- What came of a letter comes to its sender. -/
theorem Settled.moves_inform {l : Letter} {r : Except Error Response}
    (hbrings : a.Brings n l.source (l.request.resultEvent l.target r)) :
    a.Moves n (n.inform l r) := by
  refine ⟨l.source, h.work rfl rfl rfl (Or.inr ⟨_, rfl⟩) ?_⟩
  rintro _ ⟨⟩
  exact hbrings

end Moves

/-- **Every act is a turn of one member.** -/
theorem Settled.turns (h : n.Settled) (cluster : List Member) (a : Act) :
    a.Moves n (n.step cluster a) := by
  cases a with
  | start p settings window now seed fresh =>
    exact h.moves_start cluster settings window now seed fresh
  | crash p => exact h.moves_crash
  | role p =>
    exact ⟨p, h.onServer (fun _ => True) fun s hs => Server.does_workRole (h.fits p s hs)
      fun e he => Or.inr (Or.inl ⟨e, he, rfl⟩)⟩
  | tick p => exact ⟨p, h.work rfl rfl rfl (Or.inl rfl) nofun⟩
  | request k =>
    unfold Network.step
    dsimp only
    split
    · rename_i l hl
      exact h.moves_call (.letter l) ⟨l, hl, rfl, rfl⟩
    · exact h.moves_self
  | result k =>
    unfold Network.step
    dsimp only
    split
    · rename_i y hy
      unfold pass
      split
      · rename_i l x hl hx
        exact h.moves_inform ⟨y, l, x, hy, hl, hx, rfl, rfl⟩
      · exact h.moves_self
    · exact h.moves_self
  | failure k x =>
    unfold Network.step
    dsimp only
    split
    · rename_i l hl
      exact h.moves_inform ⟨l, hl, rfl, rfl⟩
    · exact h.moves_self
  | propose p q request =>
    unfold Network.step
    dsimp only
    unfold Network.propose
    split
    · exact h.moves_call (.client q) ⟨rfl, rfl⟩
    · exact h.moves_self
  | transfer p target => exact h.moves_call .operator ⟨rfl, rfl⟩
  | signal p => exact ⟨p, h.onServer (fun _ => True) fun s _ => Server.does_takeSignal⟩
  | round p => exact ⟨p, h.onServer (fun _ => True) fun s _ => Server.does_applyRound⟩
  | withdraw p request => exact ⟨p, h.onServer (· = request) fun s _ => Server.does_withdraw rfl⟩
  | setClock p now => exact ⟨p, h.onServer (fun _ => True) fun s _ => Server.does_setClock now⟩
  | disturb p faults saves broken => exact h.moves_disturb faults saves broken

/-- What a turn leaves is settled. -/
theorem Settled.turned (h : n.Settled) {Takes : Server → Option Event → Prop}
    (hturns : (n.site p).Turns Takes es B) (hturned : n.Turned p es B n') : n'.Settled := by
  suffices hB : ∀ t, B = .up t → (t.node.effects = [] ∧ t.node.applier.answers = [])
      ∧ (t.isRunning = true → t.node.tenure.Fit) by
    constructor
    · intro q t ht
      by_cases hq : q = p
      · subst hq
        exact (hB t (hturned.site_self.symm.trans ht)).1
      · exact h.taken q t ((hturned.site_of_ne hq).symm.trans ht)
    · intro q t ht
      by_cases hq : q = p
      · subst hq
        exact (hB t (hturned.site_self.symm.trans ht)).2
      · exact h.fits q t ((hturned.site_of_ne hq).symm.trans ht)
  have hfits := h.fits p
  generalize n.site p = A at hturns hfits
  -- only the member that had its turn differs, and what it said was taken
  intro t ht
  cases hturns with
  | @does s t' Named hdoes =>
    obtain rfl := Site.up.inj ht
    refine ⟨⟨rfl, rfl⟩, fun hrun => ?_⟩
    have hfit := (hdoes.keeps (P := fun _ => True) (fun _ _ _ _ _ _ => trivial)
      (fun _ _ _ _ => trivial) (fun hs => ⟨hfits s rfl hs, trivial⟩) hrun).1
    exact ⟨hfit.opened, hfit.quorum, hfit.awaits⟩
  | starts hup =>
    obtain rfl := Site.up.inj ht
    have htenure := (Server.start_tenure hup).2
    refine ⟨⟨?_, congrArg Tenure.replied htenure⟩, fun _ => (Server.fit_start hup).1⟩
    exact List.map_eq_nil_iff.1 (congrArg Tenure.said htenure)
  | falls | rests => cases ht

theorem Settled.step (h : n.Settled) (cluster : List Member) (a : Act) :
    (n.step cluster a).Settled := by
  obtain ⟨p, es, B, hturns, hturned⟩ := h.turns cluster a
  exact h.turned hturns hturned

/-! ## Outcomes -/

theorem step_result {cluster : List Member} {k : Nat} {y : Reply} (hy : n.replies[k]? = some y) :
    n.step cluster (.result k) = n.pass y := by
  unfold Network.step
  dsimp only
  rw [hy]

theorem step_failure {cluster : List Member} {k : Nat} {l : Letter} {e : Error}
    (hl : n.sent[k]? = some l) : n.step cluster (.failure k e) = n.inform l (.error e) := by
  unfold Network.step
  dsimp only
  rw [hl]

/-- What came of a letter is handled by a sender that has time for it. -/
theorem turned_inform {l : Letter} (hs : n.site l.source = .up s) (hrun : s.isRunning = true)
    (hqueue : s.node.queue = []) (r : Except Error Response) :
    n.Turned l.source (s.handle (.event (l.request.resultEvent l.target r))).takeEffects.1
      (.up (s.handle (.event (l.request.resultEvent l.target r))).takeEffects.2)
      (n.inform l r) := by
  have hfree : workFree (.event (l.request.resultEvent l.target r)) s
      = s.handle (.event (l.request.resultEvent l.target r)) := by
    unfold workFree
    rw [hrun, hqueue]
    rfl
  unfold inform work onServer
  rw [hs]
  dsimp only
  rw [hfree]
  exact ⟨rfl, rfl, rfl⟩

/-! ## Callers -/

/-- Whom the callers stand for that an act takes. -/
def Act.calls (n : Network) : Act → List Call
  | .request k => (n.sent[k]?.map Call.letter).toList
  | .propose p q _ =>
    if n.look p fun s => s.isRunning && s.node.queue.isEmpty then [.client q] else []
  | .transfer .. => [.operator]
  | _ => []

theorem Act.calls_request {k : Nat} {l : Letter} (hk : n.sent[k]? = some l) :
    Act.calls n (.request k) = [.letter l] := by
  unfold Act.calls
  dsimp only
  rw [hk]
  rfl

theorem Act.of_mem_calls {l : Letter} (h : .letter l ∈ a.calls n) :
    ∃ k, a = .request k ∧ n.sent[k]? = some l := by
  unfold Act.calls at h
  cases a with
  | request k =>
    dsimp only at h
    obtain ⟨l', hl', heq⟩ := Option.map_eq_some_iff.1 (Option.mem_toList.1 h)
    obtain rfl := Call.letter.inj heq
    exact ⟨k, rfl, hl'⟩
  | propose p q request =>
    dsimp only at h
    split at h
    · cases List.mem_singleton.1 h
    · cases h
  | transfer p target => cases List.mem_singleton.1 h
  | _ => cases h

theorem callers_onServer (n : Network) (p : NodeId) (f : Server → Server) :
    (n.onServer p f).callers = n.callers := by
  unfold onServer
  split <;> rfl

theorem callers_start (n : Network) (cluster : List Member) (p : NodeId) (settings : Settings)
    (window now : Nat) (seed : Seed) (fresh : Bool) :
    (n.start cluster p settings window now seed fresh).callers = n.callers := by
  unfold Network.start
  split
  · rfl
  · split
    · dsimp only
      split <;> rfl
    · rfl

theorem callers_crash (n : Network) (p : NodeId) : (n.crash p).callers = n.callers := by
  unfold Network.crash
  split <;> rfl

theorem callers_onStore (n : Network) (p : NodeId) (f : Node.Remains → Node.Remains) :
    (n.onStore p f).callers = n.callers := by
  unfold onStore
  split <;> rfl

theorem callers_pass (n : Network) (y : Reply) : (n.pass y).callers = n.callers := by
  unfold pass
  split
  · exact callers_onServer _ _ _
  · rfl

theorem callers_step (n : Network) (cluster : List Member) (a : Act) :
    (n.step cluster a).callers = n.callers ++ a.calls n := by
  have hnone : n.callers = n.callers ++ [] := (List.append_nil _).symm
  cases a with
  | start p settings window now seed fresh =>
    exact (callers_start n cluster p settings window now seed fresh).trans hnone
  | crash p => exact (callers_crash n p).trans hnone
  | role p | tick p | signal p | round p | withdraw p | setClock p =>
    exact (callers_onServer n p _).trans hnone
  | request k =>
    unfold Network.step Act.calls
    dsimp only
    cases hl : n.sent[k]? with
    | some l => exact callers_onServer _ _ _
    | none => exact hnone
  | result k =>
    unfold Network.step
    dsimp only
    split
    · exact (callers_pass n _).trans hnone
    · exact hnone
  | failure k e =>
    unfold Network.step
    dsimp only
    split
    · exact (callers_onServer _ _ _).trans hnone
    · exact hnone
  | propose p q request =>
    unfold Network.step Act.calls
    dsimp only
    unfold Network.propose
    split
    · exact callers_onServer _ _ _
    · exact hnone
  | transfer p target => exact callers_onServer _ _ _
  | disturb p faults saves broken => exact (callers_onStore n p _).trans hnone

end Raft.Network
