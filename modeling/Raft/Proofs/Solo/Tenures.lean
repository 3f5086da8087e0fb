import Mathlib.Data.List.Induction
import Raft.Proofs.Solo.WriteAhead
import Raft.Proofs.Tenure.Servers

/-!
# The tenure of a node by itself

* `Solo.Fits n`: the role events that wait in a node fit its seat, so that every change of role that
  is asked for is legal.
* `Solo.served n a s`: what an act makes of a server; `does_serve` says which step that is.
* `Solo.maintains_run`: what every work keeps, a node keeps.
-/

namespace Raft.Solo

variable {n : Solo} {a : Act} {s : Server}

/-- The role events that wait fit, while the event loop runs. -/
def Fits (n : Solo) : Prop :=
  ∀ s, n.site = .up s → s.isRunning = true → s.node.tenure.Fit

/-- What a node can take up in an act: the event that comes in, if no role event waits, or what
waits. -/
def Brings (n : Solo) (a : Act) (s : Server) (src : Option Event) : Prop :=
  (∃ e, a = .event e ∧ src = some (e.withCaller n.inbound.length) ∧ s.node.queue = [])
    ∨ (∃ e ∈ s.node.queue, src = (Work.role e).source) ∨ src = none

/-- What an act makes of a server; an event comes from a caller. -/
def Act.serve (caller : Caller) : Act → Server → Server
  | .role => Network.workRole
  | .tick => Network.workFree .tick
  | .event e => Network.workFree (.event (e.withCaller caller))
  | .signal => Network.takeSignal
  | .round => Network.applyRound
  | .withdraw request => Network.withdraw request
  | .setClock now => fun s => s.setClock now
  | .disturb faults saves broken => fun s =>
    { s with node := s.node.withRemains (Network.disturb faults saves broken s.node.remains) }
  | .start .. => id
  | .crash => id

/-- The server of a node after an act, before what it made visible is taken. -/
abbrev served (n : Solo) (a : Act) (s : Server) : Server := a.serve n.inbound.length s

theorem does_serve (hfits : n.Fits) (hs : n.site = .up s) (a : Act) :
    s.Does (n.Brings a s) (a = .withdraw ·) (n.served a s) := by
  have hfit := hfits s hs
  cases a with
  | role => exact Server.does_workRole hfit fun e he => Or.inr (Or.inl ⟨e, he, rfl⟩)
  | tick => exact Server.does_workFree hfit (Or.inl rfl) fun _ => Or.inr (Or.inr rfl)
  | event e =>
    exact Server.does_workFree hfit (Or.inr ⟨_, rfl⟩) fun hqueue => Or.inl ⟨e, rfl, rfl, hqueue⟩
  | signal => exact Server.does_takeSignal
  | round => exact Server.does_applyRound
  | withdraw request => exact Server.does_withdraw rfl
  | setClock now => exact Server.does_setClock now
  | disturb faults saves broken => exact Server.does_disturb faults saves broken
  | start | crash => exact Server.does_self s

/-- A node that is up and does not crash lets go of what it made visible. -/
theorem site_step (hsound : n.Sound) (hs : n.site = .up s) (ha : a ≠ .crash) :
    (n.step a).site = .up (n.served a s).takeEffects.2 := by
  have honServer : ∀ {m : Solo} {f : Server → Server}, m.site = .up s →
      (m.onServer f).site = .up (f s).takeEffects.2 := by
    intro m f hm
    unfold onServer
    rw [hm]
    rfl
  have htaken : ∀ t : Server, t.node.effects = s.node.effects →
      t.node.applier.answers = s.node.applier.answers → t.takeEffects.2 = t := by
    intro t heffects hanswers
    obtain ⟨he, ha⟩ := hsound.taken s hs
    exact Server.takeEffects_of_taken (heffects.trans he) (hanswers.trans ha)
  cases a with
  | start settings window now seed fresh =>
    show (n.start settings window now seed fresh).site = .up s.takeEffects.2
    unfold start
    rw [hs, htaken s rfl rfl]
    exact hs
  | crash => exact absurd rfl ha
  | disturb faults saves broken =>
    show (n.onStore _).site = _
    unfold onStore
    rw [hs]
    exact congrArg Network.Site.up (htaken (n.served (.disturb faults saves broken) s) rfl rfl).symm
  | event e => exact honServer (m := n.receive e) hs
  | _ => exact honServer hs

/-- A node that comes up was down, and follows. -/
theorem step_of_down {r : Node.Remains} (hr : n.site = .down r) {t : Server}
    (ht : (n.step a).site = .up t) : ∃ settings window now seed storage,
      Server.start settings true (.ok storage) window now seed = .ok t ∧ storage.stored = r.stored
        ∧ storage.log = r.log := by
  -- an act on a server does nothing to a node that is down
  have hstill : ∀ {m : Solo} {f : Server → Server}, m.site = .down r →
      (m.onServer f).site = .up t → False := by
    intro m f hm h
    unfold onServer at h
    rw [hm] at h
    dsimp only at h
    rw [hm] at h
    cases h
  cases a with
  | start settings window now seed fresh =>
    unfold step start at ht
    rw [hr] at ht
    dsimp only at ht
    split at ht
    · rename_i s hs
      obtain rfl := Network.Site.up.inj ht
      refine ⟨settings, window, now, seed, _, hs, ?_⟩
      cases fresh <;> exact ⟨rfl, rfl⟩
    · rw [hr] at ht
      cases ht
  | crash =>
    unfold step crash at ht
    rw [hr] at ht
    dsimp only at ht
    rw [hr] at ht
    cases ht
  | disturb faults saves broken =>
    unfold step onStore at ht
    rw [hr] at ht
    cases ht
  | event e => exact (hstill (m := n.receive e) hr ht).elim
  | _ => exact (hstill hr ht).elim

theorem not_up_crash {t : Server} : (n.step .crash).site ≠ .up t := by
  show n.crash.site ≠ _
  unfold crash
  split
  · exact nofun
  · rename_i r hr
    rw [hr]
    exact nofun

/-- While the event loop runs, the role events that wait fit, and the tenure is as it should be. -/
def Maintains (P : Tenure → Prop) (n : Solo) : Prop :=
  ∀ s, n.site = .up s → s.isRunning = true → s.node.tenure.Fit ∧ P s.node.tenure

theorem Maintains.fits {P : Tenure → Prop} (h : Maintains P n) : n.Fits :=
  fun s hs hrun => (h s hs hrun).1

section Runs

variable {P : Tenure → Prop} (hwork : ∀ src a b, a.Fit → P a → Worked src a b → P b)
  (hkin : ∀ a b : Tenure, P a → a.Kin b → P b) (hstart : ∀ a : Tenure, a.seat = .follower → P a)
include hwork hkin hstart

theorem Maintains.step (hsound : n.Sound) (h : Maintains P n) (a : Act) :
    Maintains P (n.step a) := by
  intro t ht hrun
  cases hsite : n.site with
  | up s =>
    have hup : a ≠ .crash := by
      rintro rfl
      exact not_up_crash ht
    obtain rfl := Network.Site.up.inj ((site_step hsound hsite hup).symm.trans ht)
    obtain ⟨hfit, hP⟩ := (does_serve h.fits hsite a).keeps hwork hkin (h s hsite) hrun
    have hsame : (n.served a s).node.tenure.Kin (n.served a s).takeEffects.2.node.tenure :=
      ⟨(n.served a s).node.log, _, _, _, _, _, rfl, rfl⟩
    exact ⟨hsame.fit hfit, hkin _ _ hP hsame⟩
  | down r =>
    obtain ⟨settings, window, now, seed, storage, hup, -⟩ := step_of_down hsite ht
    obtain ⟨hfit, hseat⟩ := Server.fit_start hup
    exact ⟨hfit, hstart _ hseat⟩

theorem maintains_run (r : Node.Remains) (acts : List Act) : Maintains P (run r acts) := by
  induction acts using List.reverseRecOn with
  | nil =>
    rintro s ⟨⟩
  | append_singleton acts a ih =>
    rw [run_append]
    exact ih.step hwork hkin hstart (sound_run r acts) a

end Runs

theorem Fits.step (hsound : n.Sound) (h : n.Fits) (a : Act) : (n.step a).Fits :=
  (Maintains.step (P := fun _ => True) (fun _ _ _ _ _ _ => trivial) (fun _ _ _ _ => trivial)
    (fun _ _ => trivial) hsound (fun s hs hrun => ⟨h s hs hrun, trivial⟩) a).fits

theorem fits_run (r : Node.Remains) (acts : List Act) : (run r acts).Fits :=
  (maintains_run (P := fun _ => True) (fun _ _ _ _ _ _ => trivial) (fun _ _ _ _ => trivial)
    (fun _ _ => trivial) r acts).fits

end Raft.Solo
