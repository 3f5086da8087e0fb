import Raft.Proofs.Profile.Transfers
import Raft.Proofs.Solo.WriteAhead

/-!
# The turns of a node by itself

What an act can do to the profile of a node, whatever comes in and whatever fails: it makes turns,
or the node starts, ends or crashes. The callers of transfers are told apart by the places of their
events, so that none of them is answered twice.

* `Server.Shows s`: the status that the server published last is that of its node.
* `Solo.phase n`, `Solo.notes n`: the profile of a node whose event loop runs, and what it ever said
  about transfers.
* `Solo.Passes n a n'`: what an act can do.
* `Solo.Steady n`: what holds between two acts.
-/

namespace Raft

/-! ## A server -/

def Post.kind : Post → RoleKind
  | .follower => .follower
  | .candidate _ => .candidate
  | .leader _ => .leader

theorem Role.kind_eq (r : Role) : r.kind = r.post.kind := by
  cases r <;> rfl

namespace Server

variable {s : Server} {w : Work}

/-- The status published last is that of the node. -/
def Shows (s : Server) : Prop :=
  s.status.role = s.node.profile.post.kind ∧ s.status.term = s.node.profile.hard.term

theorem Shows.congr {t : Server} (h : s.Shows) (hstatus : t.status = s.status)
    (hprofile : t.node.profile = s.node.profile) : t.Shows := by
  unfold Shows
  rw [hstatus, hprofile]
  exact h

theorem shows_of_status (h : s.status = s.node.status) : s.Shows := by
  unfold Shows
  rw [h]
  exact ⟨Role.kind_eq _, rfl⟩

/-- A server that handled something publishes what it came to in turns, or it ends; what it said
stays. -/
theorem handle_turns (hopen : s.node.profile.closed = false) (hw : w.Comes s.node) :
    ((s.handle w).ended = s.ended ∧ (s.handle w).Shows
        ∧ Turns w.source (w.profile s.node) (s.handle w).node.profile)
      ∨ ((s.handle w).ended.isSome = true
        ∧ ∃ m, Turns w.source (w.profile s.node) m
          ∧ (s.handle w).node.profile.notes = m.notes) := by
  have h := Work.run_takes hopen hw
  unfold Action.Ensures at h
  unfold handle
  cases hrun : w.run.run s.node with
  | ok a n =>
    rw [hrun] at h
    exact Or.inl ⟨rfl, shows_of_status rfl, h⟩
  | error f n =>
    rw [hrun] at h
    obtain ⟨m, hm, hnotes, hsame⟩ := h
    cases f with
    | overflow => exact Or.inr ⟨rfl, m, hm, hnotes⟩
    | error e =>
      dsimp only [Action.outcome]
      split
      · exact Or.inr ⟨rfl, m, hm, hnotes⟩
      · rename_i he
        refine Or.inl ⟨rfl, shows_of_status rfl, ?_⟩
        show Turns _ _ n.profile
        rw [hsame ⟨e, rfl, by simpa using he⟩]
        exact hm

theorem start_profile {settings : Settings} {storage : Node.Remains} {window now : Nat}
    {seed : Seed}
    (h : Server.start settings true (.ok storage) window now seed = .ok s) :
    s.isRunning = true ∧ s.Shows ∧ s.node.profile =
      ⟨settings.cluster.node, settings.cluster.members.length, .follower, storage.stored.getD {},
        [], false, []⟩ := by
  obtain ⟨-, node, hnode, rfl⟩ := exists_of_start h
  obtain ⟨sessions, timer, seed, -, rfl⟩ := Node.exists_of_start hnode
  exact ⟨rfl, shows_of_status rfl, rfl⟩

end Server

namespace Solo

variable {n : Solo} {s : Server} {a : Act}

/-! ## What an act does -/

/-- The event loop of a node: it is down, it has ended, or it runs. -/
inductive Phase where
  | down
  | ended
  | runs (p : Profile)

def phase (n : Solo) : Phase :=
  match n.site with
  | .up s => if s.isRunning then .runs s.node.profile else .ended
  | .down _ => .down

/-- What the node ever said about transfers. -/
def notes (n : Solo) : List Note := n.history.filterMap Departure.note?

/-- What an act can do to the profile of a node. -/
inductive Passes (n : Solo) (a : Act) (n' : Solo) : Prop
  | same (hphase : n'.phase = n.phase) (hnotes : n'.notes = n.notes)
  | crash (hact : a = .crash) (hphase : n'.phase = .down) (hnotes : n'.notes = n.notes)
  | start (p : Profile) (hdown : n.phase = .down) (hphase : n'.phase = .runs p)
      (hpost : p.post = .follower) (hopen : p.closed = false) (hqueue : p.queue = [])
      (hsilent : p.notes = []) (hnotes : n'.notes = n.notes)
  /-- The loop takes up a work; an event only when no role event waits. -/
  | work (p m : Profile) (src : Option Event) (hold : n.phase = .runs p) (hsilent : p.notes = [])
      (hsrc : (∃ e, a = .event e ∧ src = some (e.withCaller n.inbound.length) ∧ p.queue = [])
        ∨ ∀ x, src = some x → x.IsRequest)
      (hturns : Turns src p m)
      (hphase : n'.phase = .runs { m with notes := [] } ∨ n'.phase = .ended)
      (hnotes : n'.notes = n.notes ++ m.notes)

/-- The callers of transfers that were answered, and the one that waits. -/
def callers (n : Solo) : List Caller :=
  n.notes.filterMap Note.caller? ++ match n.phase with
    | .runs p => p.callers
    | _ => []

theorem callers_of_phase {p : Profile} (hp : n.phase = .runs p) :
    n.callers = n.notes.filterMap Note.caller? ++ p.callers := by
  unfold callers
  rw [hp]

/-- What holds of a node between two acts. -/
structure Steady (n : Solo) : Prop where
  shows : ∀ s, n.site = .up s → s.isRunning = true → s.Shows
  opened : ∀ p, n.phase = .runs p → p.closed = false
  replays : ∀ p, n.phase = .runs p → ∀ x, .replay x ∈ p.queue → x.IsRequest
  nodup : n.callers.Nodup
  below : ∀ c ∈ n.callers, c < n.inbound.length

theorem Steady.callers_nodup {p : Profile} (h : n.Steady) (hp : n.phase = .runs p) :
    p.callers.Nodup := by
  have hnodup := h.nodup
  rw [callers_of_phase hp] at hnodup
  exact (List.nodup_append.1 hnodup).2.1

/-- The event that an act brings in. -/
def incoming (n : Solo) : Act → List Event
  | .event e => [e.withCaller n.inbound.length]
  | _ => []

theorem inbound_onServer (f : Server → Server) : (n.onServer f).inbound = n.inbound := by
  unfold onServer
  split <;> rfl

theorem inbound_step (n : Solo) (a : Act) : (n.step a).inbound = n.inbound ++ n.incoming a := by
  cases a with
  | event e => exact inbound_onServer _
  | start | crash | disturb =>
    simp only [step, start, crash, onStore, incoming, List.append_nil]
    repeat' split
    all_goals rfl
  | _ => exact (inbound_onServer _).trans (List.append_nil _).symm

theorem phase_of_up (hs : n.site = .up s) :
    n.phase = if s.isRunning then .runs s.node.profile else .ended := by
  unfold phase
  rw [hs]

theorem phase_of_running (hs : n.site = .up s) (hrun : s.isRunning = true) :
    n.phase = .runs s.node.profile := by
  rw [phase_of_up hs, if_pos hrun]

/-- Only a server that runs has a profile to go on with. -/
theorem exists_of_phase {p : Profile} (h : n.phase = .runs p) :
    ∃ s, n.site = .up s ∧ s.isRunning = true ∧ s.node.profile = p := by
  unfold phase at h
  split at h
  · rename_i s hs
    split at h
    · rename_i hrun
      exact ⟨s, hs, hrun, Phase.runs.inj h⟩
    · cases h
  · cases h

theorem exists_of_server? {f : Server → Bool} (h : n.server?.any f = true) :
    ∃ s, n.site = .up s ∧ f s = true := by
  unfold server? at h
  split at h
  · rename_i s hs
    exact ⟨s, hs, h⟩
  · cases h

theorem notes_settle (n : Solo) (s : Server) :
    (n.settle s).notes = n.notes ++ s.node.profile.notes := List.filterMap_append

theorem phase_settle (n : Solo) (s : Server) :
    (n.settle s).phase
      = if s.isRunning then .runs { s.node.profile with notes := [] } else .ended := rfl

theorem silent_of_taken (h : n.Sound) (hs : n.site = .up s) : s.node.profile.notes = [] := by
  unfold Node.profile
  rw [(h.taken s hs).1]
  rfl

/-- The turns that an act takes, and the status that it leaves. -/
def Goes (n : Solo) (a : Act) (n' : Solo) : Prop :=
  Passes n a n' ∧ ∀ s, n'.site = .up s → s.isRunning = true → s.Shows

theorem goes_self (h : n.Steady) : Goes n a n := ⟨.same rfl rfl, h.shows⟩

theorem goes_still {f : Server → Server} (h : n.Steady) (hsound : n.Sound)
    (hf : ∀ s, (f s).node.profile = s.node.profile ∧ (f s).status = s.status
      ∧ (f s).ended = s.ended) : Goes n a (n.onServer f) := by
  unfold onServer
  split
  · rename_i s hs
    obtain ⟨hprofile, hstatus, hended⟩ := hf s
    have hrun : (f s).isRunning = s.isRunning := by
      unfold Server.isRunning
      rw [hended]
    have hsilent := silent_of_taken hsound hs
    constructor
    · apply Passes.same
      · rw [phase_settle, phase_of_up hs, hrun, hprofile]
        split
        · generalize s.node.profile = p at hsilent
          rw [← hsilent]
        · rfl
      · rw [notes_settle, hprofile, hsilent, List.append_nil]
    · rintro _ ⟨⟩ hrunning
      exact (h.shows s hs (hrun ▸ hrunning)).congr (t := f s) hstatus hprofile
  · exact goes_self h

theorem goes_handle {w : Work} {t : Server} (hsound : n.Sound) (hs : n.site = .up s)
    (hrun : s.isRunning = true) (ht : t.ended = s.ended)
    (hprofile : w.profile t.node = s.node.profile) (hopen : t.node.profile.closed = false)
    (hw : w.Comes t.node)
    (hsrc : (∃ e, a = .event e ∧ w.source = some (e.withCaller n.inbound.length)
        ∧ s.node.profile.queue = []) ∨ ∀ x, w.source = some x → x.IsRequest) :
    Goes n a (n.settle (t.handle w)) := by
  have hsilent := silent_of_taken hsound hs
  rcases Server.handle_turns hopen hw with ⟨hended, hshows, hturns⟩ | ⟨hended, m, hturns, hnotes⟩
  · rw [hprofile] at hturns
    have hrun' : (t.handle w).isRunning = true := by
      unfold Server.isRunning at hrun ⊢
      rw [hended, ht]
      exact hrun
    constructor
    · refine Passes.work _ _ _ (phase_of_running hs hrun) hsilent hsrc hturns (Or.inl ?_) ?_
      · rw [phase_settle, if_pos hrun']
      · exact notes_settle _ _
    · rintro _ ⟨⟩ _
      exact hshows
  · rw [hprofile] at hturns
    have hend : (t.handle w).isRunning = false := by
      unfold Server.isRunning
      exact Option.isNone_eq_false_iff.2 hended
    constructor
    · refine Passes.work _ _ _ (phase_of_running hs hrun) hsilent hsrc hturns (Or.inr ?_) ?_
      · rw [phase_settle, hend]
        rfl
      · rw [notes_settle, hnotes]
    · rintro _ ⟨⟩ hrunning
      exact absurd (hend ▸ hrunning : false = true) Bool.false_ne_true

theorem goes_workFree {w : Work} (h : n.Steady) (hsound : n.Sound)
    (hprofile : ∀ k : Node, w.profile k = k.profile)
    (hw : ∀ s, n.site = .up s → s.isRunning = true → s.node.queue = [] → w.Comes s.node)
    (hsrc : (∃ e, a = .event e ∧ w.source = some (e.withCaller n.inbound.length))
      ∨ ∀ x, w.source = some x → x.IsRequest) :
    Goes n a (n.onServer (Network.workFree w)) := by
  by_cases hidle : ∃ s, n.site = .up s ∧ s.isRunning = true ∧ s.node.queue = []
  · obtain ⟨s, hs, hrun, hqueue⟩ := hidle
    unfold onServer
    rw [hs]
    dsimp only
    unfold Network.workFree
    rw [if_pos (by simp [hrun, hqueue])]
    refine goes_handle hsound hs hrun rfl (hprofile _) (h.opened _ (phase_of_running hs hrun))
      (hw s hs hrun hqueue) ?_
    exact hsrc.imp (fun ⟨e, he, hsource⟩ => ⟨e, he, hsource, hqueue⟩) id
  · have hstill : n.onServer (Network.workFree w) = n.onServer id := by
      unfold onServer
      split
      · rename_i s hs
        unfold Network.workFree
        rw [if_neg]
        · rfl
        · intro hboth
          rw [Bool.and_eq_true, List.isEmpty_iff] at hboth
          exact hidle ⟨s, hs, hboth.1, hboth.2⟩
      · rfl
    rw [hstill]
    exact goes_still h hsound fun s => ⟨rfl, rfl, rfl⟩

theorem goes_workRole (h : n.Steady) (hsound : n.Sound) :
    Goes n a (n.onServer Network.workRole) := by
  by_cases hbusy : ∃ s e queue, n.site = .up s ∧ s.isRunning = true ∧ s.node.queue = e :: queue
  · obtain ⟨s, e, queue, hs, hrun, hqueue⟩ := hbusy
    have hphase := phase_of_running hs hrun
    unfold onServer
    rw [hs]
    dsimp only
    unfold Network.workRole
    rw [hqueue]
    dsimp only
    rw [if_pos hrun]
    have hrequest : ∀ x, e = .replay x → x.IsRequest := by
      rintro x rfl
      apply h.replays _ hphase
      show _ ∈ s.node.queue
      rw [hqueue]
      exact List.mem_cons_self ..
    have hopen := h.opened _ hphase
    refine goes_handle hsound hs hrun rfl ?_ hopen ?_ (Or.inr ?_)
    · show ({ s.node.profile with queue := e :: queue } : Profile) = _
      rw [← hqueue]
      rfl
    · cases e with
      | replay x => exact hrequest x rfl
      | _ => trivial
    · intro x hx
      cases e with
      | replay y =>
        obtain rfl := Option.some.inj hx
        exact hrequest y rfl
      | _ => cases hx
  · -- nothing waits, or the loop has ended
    have hstill : n.onServer Network.workRole = n.onServer id := by
      unfold onServer
      split
      · rename_i s hs
        unfold Network.workRole
        split
        · rename_i e queue hqueue
          rw [if_neg]
          · rfl
          · exact fun hrun => hbusy ⟨s, e, queue, hs, hrun, hqueue⟩
        · rfl
      · rfl
    rw [hstill]
    exact goes_still h hsound fun s => ⟨rfl, rfl, rfl⟩

theorem goes_start (h : n.Steady) (settings : Settings) (window now : Nat) (seed : Seed)
    (fresh : Bool) : Goes n a (n.start settings window now seed fresh) := by
  unfold start
  split
  · exact goes_self h
  · rename_i r hr
    dsimp only
    split
    · rename_i s hs
      obtain ⟨hrun, hshows, hprofile⟩ := Server.start_profile hs
      constructor
      · refine Passes.start _ ?_ (phase_of_running rfl hrun) ?_ ?_ ?_ ?_ rfl
        · unfold phase
          rw [hr]
        all_goals rw [hprofile]
      · rintro _ ⟨⟩ _
        exact hshows
    · exact goes_self h

theorem goes_crash (h : n.Steady) : Goes n .crash n.crash := by
  unfold crash
  split
  · refine ⟨Passes.crash rfl rfl rfl, ?_⟩
    rintro s ⟨⟩
  · exact goes_self h

theorem goes_disturb (h : n.Steady) (faults : LogFaults) (saves : Option Nat) (broken : Bool) :
    Goes n a (n.onStore (Network.disturb faults saves broken)) := by
  unfold onStore
  split
  · rename_i s hs
    constructor
    · apply Passes.same
      · rw [phase_of_up hs]
        rfl
      · rfl
    · intro t ht hrun
      obtain rfl := Network.Site.up.inj ht
      have hrun : s.ended.isNone = true := hrun
      exact h.shows s hs hrun
  · rename_i r hr
    constructor
    · apply Passes.same
      · unfold phase
        rw [hr]
      · rfl
    · rintro s ⟨⟩

/-- What came in by itself changes nothing. -/
theorem Goes.receive {n' : Solo} (h : Goes n a n') (inbound : List Event) :
    Goes n a { n' with inbound } := by
  obtain ⟨hpasses, hshows⟩ := h
  refine ⟨?_, hshows⟩
  cases hpasses with
  | same hphase hnotes => exact .same hphase hnotes
  | crash hact hphase hnotes => exact .crash hact hphase hnotes
  | start p hdown hphase hpost hopen hqueue hsilent hnotes =>
    exact .start p hdown hphase hpost hopen hqueue hsilent hnotes
  | work p m src hold hsilent hsrc hturns hphase hnotes =>
    exact .work p m src hold hsilent hsrc hturns hphase hnotes

theorem step_event_of_free (e : Event) (hs : n.site = .up s) (hrun : s.isRunning = true)
    (hqueue : s.node.queue = []) :
    n.step (.event e)
      = { n.settle (s.handle (.event (e.withCaller n.inbound.length))) with
        inbound := n.inbound ++ [e.withCaller n.inbound.length] } := by
  show (n.receive e).onServer _ = _
  unfold onServer Solo.receive
  dsimp only
  rw [hs]
  dsimp only
  unfold Network.workFree
  rw [if_pos (by simp [hrun, hqueue])]
  rfl

theorem goes_event (h : n.Steady) (hsound : n.Sound) (e : Event) :
    Goes n (.event e) (n.step (.event e)) := by
  have hstep : n.step (.event e)
      = { n.onServer (Network.workFree (.event (e.withCaller n.inbound.length))) with
        inbound := n.inbound ++ [e.withCaller n.inbound.length] } := by
    show (n.receive e).onServer _ = _
    unfold onServer Solo.receive
    dsimp only
    cases hs : n.site with
    | up s => rfl
    | down r => simp [hs]
  rw [hstep]
  refine Goes.receive (goes_workFree h hsound (fun _ => rfl) (fun s hs hrun hqueue => ?_)
    (Or.inl ⟨e, rfl, rfl⟩)) _
  have hphase := phase_of_running hs hrun
  refine ⟨h.opened _ hphase, Or.inr ?_, ?_⟩
  · unfold Profile.retires
    rw [show s.node.profile.queue = [] from hqueue]
    rfl
  · intro target c hc hmem
    have hplace : c = n.inbound.length := Event.eq_of_withCaller hc
    have hlt : c < n.inbound.length := by
      apply h.below
      rw [callers_of_phase hphase]
      exact List.mem_append_right _ hmem
    exact Nat.ne_of_lt hlt hplace

/-- What a work leaves: if the loop ends with it, only who was told. -/
theorem callers_of_work {m : Profile} {n' : Solo}
    (hphase : n'.phase = .runs { m with notes := [] } ∨ n'.phase = .ended)
    (hnotes : n'.notes = n.notes ++ m.notes) :
    n'.callers.Sublist (n.notes.filterMap Note.caller? ++ m.callers) := by
  unfold Solo.callers Profile.callers
  rw [hnotes, List.filterMap_append, List.append_assoc]
  rcases hphase with hphase | hphase
  · rw [hphase]
    exact List.Sublist.refl _
  · rw [hphase, List.append_nil]
    exact (List.sublist_append_left _ _).append_left _

/-- The turns of a work keep the callers apart, if whoever is new has the place of the event that
just came in. -/
theorem Steady.nodup_work {p m : Profile} {src : Option Event} (h : n.Steady)
    (hold : n.phase = .runs p) (hturns : Turns src p m)
    (hlast : ∀ target c, src = some (.transfer target c) → c = n.inbound.length) :
    (n.notes.filterMap Note.caller? ++ m.callers).Nodup := by
  obtain ⟨hnodup, -, hnew⟩ := hturns.callers (h.callers_nodup hold)
  have hcallers := callers_of_phase hold
  obtain ⟨htold, -, hapart⟩ := List.nodup_append.1 (hcallers ▸ h.nodup)
  refine List.nodup_append.2 ⟨htold, hnodup, fun c hc d hd => ?_⟩
  rcases hnew d hd with hd | ⟨target, hd⟩
  · exact hapart c hc d hd
  · rw [hlast target d hd]
    refine Nat.ne_of_lt (h.below c ?_)
    rw [hcallers]
    exact List.mem_append_left _ hc

/-- The callers stay apart, and only the event that comes in brings a new one. -/
theorem Passes.callers {n' : Solo} (h : n.Steady) (hpasses : Passes n a n')
    (hinbound : n'.inbound = n.inbound ++ n.incoming a) :
    n'.callers.Nodup
      ∧ ∀ c ∈ n'.callers, c ∈ n.callers ∨ c = n.inbound.length ∧ c < n'.inbound.length := by
  have hsub : n'.callers.Sublist n.callers → n'.callers.Nodup
      ∧ ∀ c ∈ n'.callers, c ∈ n.callers ∨ c = n.inbound.length ∧ c < n'.inbound.length :=
    fun hsub => ⟨h.nodup.sublist hsub, fun c hc => Or.inl (hsub.subset hc)⟩
  cases hpasses with
  | same hphase hnotes =>
    apply hsub
    unfold Solo.callers
    rw [hphase, hnotes]
  | crash _ hphase hnotes =>
    apply hsub
    unfold Solo.callers
    rw [hphase, hnotes, List.append_nil]
    exact List.sublist_append_left _ _
  | start p hdown hphase hpost hopen hqueue hsilent hnotes =>
    apply hsub
    unfold Solo.callers
    rw [hphase, hdown, hnotes]
    simp [Profile.callers, Profile.caller?, Post.transfer?, hsilent, hpost]
  | work p m src hold hsilent hsrc hturns hphase hnotes =>
    -- whoever is new has the place of the event that just came in
    have hlast : ∀ target c, src = some (.transfer target c) →
        c = n.inbound.length ∧ c < n'.inbound.length := by
      intro target c hc
      rcases hsrc with ⟨e, rfl, he, -⟩ | hrequest
      · have hplace := Event.eq_of_withCaller (Option.some.inj (he.symm.trans hc))
        refine ⟨hplace, ?_⟩
        rw [hinbound, hplace]
        simp [incoming]
      · exact (hrequest _ hc).elim
    have hleft := callers_of_work hphase hnotes
    have hnew := (hturns.callers (h.callers_nodup hold)).2.2
    refine ⟨(h.nodup_work hold hturns fun _ c hc => (hlast _ c hc).1).sublist hleft, fun c hc => ?_⟩
    rw [callers_of_phase hold]
    rcases List.mem_append.1 (hleft.subset hc) with hc | hc
    · exact Or.inl (List.mem_append_left _ hc)
    · rcases hnew c hc with hc | ⟨target, hc⟩
      · exact Or.inl (List.mem_append_right _ hc)
      · exact Or.inr (hlast target c hc)

/-- What holds between two acts follows from what the act does. -/
theorem Goes.steady {n' : Solo} (h : n.Steady) (hgoes : Goes n a n')
    (hinbound : n'.inbound = n.inbound ++ n.incoming a) : n'.Steady := by
  obtain ⟨hpasses, hshows⟩ := hgoes
  obtain ⟨hnodup, hcallers⟩ := hpasses.callers h hinbound
  have hbelow : ∀ c ∈ n'.callers, c < n'.inbound.length := by
    intro c hc
    rcases hcallers c hc with hc | ⟨-, hlt⟩
    · refine Nat.lt_of_lt_of_le (h.below c hc) ?_
      rw [hinbound, List.length_append]
      exact Nat.le_add_right _ _
    · exact hlt
  suffices hrest : (∀ p, n'.phase = .runs p → p.closed = false)
      ∧ ∀ p, n'.phase = .runs p → ∀ x, .replay x ∈ p.queue → x.IsRequest from
    ⟨hshows, hrest.1, hrest.2, hnodup, hbelow⟩
  cases hpasses with
  | same hphase =>
    rw [hphase]
    exact ⟨h.opened, h.replays⟩
  | crash _ hphase =>
    rw [hphase]
    exact ⟨nofun, nofun⟩
  | start p _ hphase _ hopen hqueue =>
    rw [hphase]
    refine ⟨?_, ?_⟩
    · rintro _ ⟨⟩
      exact hopen
    · rintro _ ⟨⟩
      rw [hqueue]
      nofun
  | work p m src hold _ _ hturns hphase =>
    rcases hphase with hphase | hphase <;> rw [hphase]
    · refine ⟨?_, ?_⟩
      · rintro _ ⟨⟩
        exact hturns.constant.2.2.trans (h.opened p hold)
      · rintro _ ⟨⟩
        exact hturns.replays (h.replays p hold)
    · exact ⟨nofun, nofun⟩

theorem goes_step (h : n.Steady) (hsound : n.Sound) (a : Act) : Goes n a (n.step a) := by
  cases a with
  | start settings window now seed fresh => exact goes_start h settings window now seed fresh
  | crash => exact goes_crash h
  | role => exact goes_workRole h hsound
  | tick => exact goes_workFree h hsound (fun _ => rfl) (fun _ _ _ _ => trivial) (Or.inr nofun)
  | event e => exact goes_event h hsound e
  | signal =>
    apply goes_still h hsound
    intro s
    unfold Network.takeSignal
    split <;> exact ⟨rfl, rfl, rfl⟩
  | round => exact goes_still h hsound fun s => ⟨rfl, rfl, rfl⟩
  | withdraw request => exact goes_still h hsound fun s => ⟨rfl, rfl, rfl⟩
  | setClock now => exact goes_still h hsound fun s => ⟨rfl, rfl, rfl⟩
  | disturb faults saves broken => exact goes_disturb h faults saves broken

theorem steady_down (r : Node.Remains) : Steady { site := .down r } := by
  have hcallers : ({ site := .down r } : Solo).callers = [] := rfl
  constructor
  · rintro s ⟨⟩
  · rintro p ⟨⟩
  · rintro p ⟨⟩
  · rw [hcallers]
    exact List.nodup_nil
  · rw [hcallers]
    exact fun c hc => absurd hc List.not_mem_nil

/-- **Any number of acts.** They keep what holds between two acts, and what every act keeps. -/
theorem Steady.induct {P : Solo → Prop} {acts : List Act} (h : n.Steady) (hsound : n.Sound)
    (hstep : ∀ n, ∀ a ∈ acts, P n → Passes n a (n.step a) → P (n.step a)) (hn : P n) :
    (n.steps acts).Steady ∧ P (n.steps acts) := by
  induction acts generalizing n with
  | nil => exact ⟨h, hn⟩
  | cons a acts ih =>
    have hgoes := goes_step h hsound a
    exact ih (hgoes.steady h (inbound_step n a)) (keeps_step hsound a).1
      (fun m b hb => hstep m b (List.mem_cons_of_mem _ hb))
      (hstep n a (List.mem_cons_self ..) hn hgoes.1)

/-- The event loop has ended, or a profile is as it should be. -/
def Holds (P : Profile → Prop) (n : Solo) : Prop :=
  n.phase = .ended ∨ ∃ p, n.phase = .runs p ∧ P p

/-- What every turn keeps, a node keeps that does not crash. -/
theorem Holds.step {P : Profile → Prop} {n' : Solo}
    (hturn : ∀ src p q, P p → Turn src p q → P q)
    (hnotes : ∀ p notes, P p → P { p with notes }) (hn : Holds P n) (ha : a ≠ .crash)
    (hpasses : Passes n a n') : Holds P n' := by
  cases hpasses with
  | same hphase =>
    unfold Holds
    rw [hphase]
    exact hn
  | crash hact => exact absurd hact ha
  | start p hdown =>
    rcases hn with hn | ⟨q, hn, -⟩ <;> rw [hdown] at hn <;> cases hn
  | work p m src hold _ _ hturns hphase =>
    rcases hphase with hphase | hphase
    · right
      rcases hn with hn | ⟨q, hn, hq⟩ <;> rw [hold] at hn <;> cases hn
      exact ⟨_, hphase, hnotes _ _ (hturns.induct (fun x y hx h => hturn src x y hx h) hq)⟩
    · exact Or.inl hphase

theorem Holds.steps {P : Profile → Prop} (hturn : ∀ src p q, P p → Turn src p q → P q)
    (hnotes : ∀ p notes, P p → P { p with notes }) (h : n.Steady) (hsound : n.Sound)
    (hn : Holds P n) {acts : List Act} (hacts : ∀ a ∈ acts, a ≠ .crash) :
    Holds P (n.steps acts) :=
  (h.induct hsound (fun _ a ha hm hpasses => hm.step hturn hnotes (hacts a ha) hpasses) hn).2

theorem Holds.of_running {P : Profile → Prop} (hn : Holds P n) (hs : n.site = .up s)
    (hrun : s.isRunning = true) : P s.node.profile := by
  rcases hn with hn | ⟨p, hn, hp⟩ <;> rw [phase_of_running hs hrun] at hn <;> cases hn
  exact hp

theorem steady_run (r : Node.Remains) (acts : List Act) : (run r acts).Steady :=
  ((steady_down r).induct (P := fun _ => True) (sound_down r) (fun _ _ _ _ _ => trivial) trivial).1

theorem goes_run (r : Node.Remains) (acts : List Act) (a : Act) :
    Goes (run r acts) a (run r (acts ++ [a])) := by
  rw [run_append]
  exact goes_step (steady_run r acts) (sound_run r acts) a

end Solo

end Raft
