import Raft.Proofs.Network.Tally

/-!
# Moves are steps of the protocol

Every move of a node that agrees with the past is a step of the protocol, or none, after which the
node agrees with the past again. With the invariant of the protocol this goes through whatever a
node handles.

* `Placed cores past p o`: a node with the outline `o` in its place among the others.
* `Reaches cores past p o`: the same in a past that has grown.
* `Move.simulates` takes the moves one by one, `Moves.simulates` goes over a run of them, and
  `Breaks.simulates` over one that stops the node.
-/

namespace Raft.Node

open Protocol (Core Record Step)
open Network (Past)

variable {cores : NodeId → Core} {past : Past} {p : NodeId} {src : Option Event} {o o' : Outline}
  {r' : Record}

/-- A node in its place among the others agrees with the past. -/
structure Placed (cores : NodeId → Core) (past : Past) (p : NodeId) (o : Outline) : Prop where
  sound : Protocol.Sound past.members (Function.update cores p o.core) past.record
  fits : o.Fits past p
  origin : past.Origin

/-- A node agrees with a past that has grown. -/
def Reaches (cores : NodeId → Core) (past : Past) (p : NodeId) (o : Outline) : Prop :=
  ∃ r', past.record.Grows r' ∧ Placed cores { past with record := r' } p o

theorem grows_record (g : past.record.Grows r') : past.Grows { past with record := r' } :=
  ⟨rfl, List.prefix_rfl, List.Subset.refl _, g⟩

theorem sound_update {c c' : Core} {members : List NodeId} {r : Record}
    (h : Protocol.Sound members (Function.update cores p c) r) (hs : Step members p c r c' r') :
    Protocol.Sound members (Function.update cores p c') r' ∧ r.Grows r' := by
  have hc : Function.update cores p c p = c := Function.update_self p c cores
  rw [← hc] at hs
  have hsound := hs.sound h
  rw [Function.update_idem] at hsound
  exact ⟨hsound, (hs.evolves h).toGrows⟩

namespace Placed

variable (h : Placed cores past p o)
include h

theorem core : o.core.Sound past.members past.record p := by
  have := h.sound.core p
  rwa [Function.update_self] at this

theorem covers : past.record.Covers o.log := h.core.covers h.sound.record

theorem commit_le : o.commit ≤ o.log.length := h.core.settled.le_length

/-- The log of a node may change after its committed part. -/
theorem serves_log {l : List Entry} (hl : l.take o.commit = o.log.take o.commit) :
    past.Serves l o.applier o.effects := h.fits.serves.log h.fits.applier.applied hl

/-- A move that the protocol does not see. -/
theorem stays (hcore : o'.core = o.core) (hfits : o'.Fits past p) : Reaches cores past p o' := by
  refine ⟨past.record, Record.Grows.refl _, ?_, hfits, h.origin⟩
  rw [hcore]
  exact h.sound

/-- A move that is a step, and nothing new for the record. -/
theorem steps_quietly (hs : Step past.members p o.core past.record o'.core past.record)
    (hfits : o'.Fits past p) : Reaches cores past p o' :=
  ⟨past.record, Record.Grows.refl _, (sound_update h.sound hs).1, hfits, h.origin⟩

/-- A move that is a step, and may write an entry. -/
theorem writes (hs : Step past.members p o.core past.record o'.core r')
    (hnew : ∀ e, o'.log = o.log ++ [e] → ∀ c, e.payload = .command c →
      ∃ caller q, past.Asks caller q ∧ q.toCommand = c)
    (hfits : past.Grows { past with record := r' } → o'.Fits { past with record := r' } p) :
    Reaches cores past p o' := by
  obtain ⟨hsound, g⟩ := sound_update h.sound hs
  refine ⟨r', g, hsound, hfits (grows_record g), ?_⟩
  intro t e he c hc
  rcases hs.mem_ledger h.core he with ⟨u, hold⟩ | hlog
  · exact h.origin u e hold c hc
  · exact hnew e hlog c hc

/-- A move that is a step, and writes nothing. -/
theorem steps (hs : Step past.members p o.core past.record o'.core r') (hlog : o'.log = o.log)
    (hfits : past.Grows { past with record := r' } → o'.Fits { past with record := r' } p) :
    Reaches cores past p o' := by
  refine h.writes hs ?_ hfits
  intro e he
  rw [hlog] at he
  simp at he

end Placed

/-! ## Phases -/

theorem Outline.phase_congr (hstance : o'.stance = o.stance)
    (hqueue : o'.queue.any stepsDown = o.queue.any stepsDown) : o'.phase = o.phase := by
  unfold Outline.phase
  rw [hstance, hqueue]

/-- The stance of an idle node that is not about to step down is that of a follower. -/
theorem Outline.not_leader_of_idle {m : PeerMap} (hphase : o.phase = .idle)
    (hstance : o.stance = .leader m) : o.queue.any stepsDown = true := by
  unfold Outline.phase at hphase
  rw [hstance] at hphase
  split at hphase
  · rename_i hq
    exact hq
  · cases hphase

theorem Outline.lastId_eq {r : Record} (h : r.Covers o.log) :
    o.lastId.index = o.log.length ∧ o.lastId.term = lastTerm o.log := by
  unfold Outline.lastId lastTerm
  cases hlast : o.log.getLast? with
  | none =>
    rw [List.getLast?_eq_none_iff.1 hlast]
    exact ⟨rfl, rfl⟩
  | some e =>
    refine ⟨?_, rfl⟩
    rw [List.getLast?_eq_getElem?] at hlast
    have hlt := (List.getElem?_eq_some_iff.1 hlast).1
    exact h.positioned _ _ (entryAt_eq_some_iff.2 ⟨by omega, hlast⟩)

/-! ## Effects -/

theorem Outline.Fits.utter {e : Effect} (h : o.Fits past p) (he : past.Vouches p e)
    (hreports : ∀ caller c, e = .answer caller (.client (.committed c)) →
      past.Reports o.log o.applier.lastApplied o.applier.machine.applied caller c) :
    Outline.Fits past p { o with effects := o.effects ++ [e] } :=
  { h with
    effects := by
      intro x hx
      rcases List.mem_append.1 hx with hx | hx
      · exact h.effects x hx
      · rwa [List.mem_singleton.1 hx]
    serves := h.serves.utter hreports }

section Utter

variable (h : Placed cores past p o) (hsrc : ∀ e, src = some e → past.Knows p e)
include h

theorem Placed.utters {e : Effect} (he : past.Vouches p e)
    (hreports : ∀ caller c, e = .answer caller (.client (.committed c)) →
      past.Reports o.log o.applier.lastApplied o.applier.machine.applied caller c) :
    Reaches cores past p { o with effects := o.effects ++ [e] } :=
  h.stays rfl (h.fits.utter he hreports)

theorem Placed.utters_step {e : Effect}
    (hs : Step past.members p o.core past.record o.core r')
    (he : Past.Vouches { past with record := r' } p e)
    (hnot : ∀ caller c, e ≠ .answer caller (.client (.committed c))) :
    Reaches cores past p { o with effects := o.effects ++ [e] } :=
  h.steps hs rfl fun g => (h.fits.mono g).utter he fun caller c hc => absurd hc (hnot caller c)

theorem Placed.sends {target : NodeId} {q : Request} (hu : Utters src o (.send target q)) :
    Reaches cores past p { o with effects := o.effects ++ [.send target q] } := by
  obtain ⟨⟨htarget, hne⟩, hq⟩ := hu
  rw [h.fits.members] at htarget
  rw [h.fits.self] at hne
  cases q with
  | vote q =>
    obtain ⟨⟨votes, hphase⟩, rfl⟩ := hq
    obtain ⟨hindex, hterm⟩ := Outline.lastId_eq h.covers
    have hq : (⟨o.hard.term, o.self, o.lastId.index, o.lastId.term⟩ : VoteRequest)
        = ⟨o.hard.term, p, o.log.length, lastTerm o.log⟩ := by
      rw [hindex, hterm, h.fits.self]
    rw [hq]
    refine h.utters_step (Step.ask votes hphase) ?_ nofun
    exact ⟨htarget, hne, rfl, Or.inr rfl⟩
  | append q =>
    obtain ⟨hphase, hterm, -, hpart, hcommit⟩ := hq
    refine h.utters_step (Step.offer q hphase hterm hpart hcommit) ?_ nofun
    exact ⟨htarget, hne, Or.inr rfl⟩
  | timeoutNow q => exact h.utters ⟨htarget, hne, trivial⟩ nofun

include hsrc

theorem Placed.answers {caller : Caller} {a : Answer} (hu : Utters src o (.answer caller a)) :
    Reaches cores past p { o with effects := o.effects ++ [.answer caller a] } := by
  cases a with
  | vote a =>
    cases a with
    | error => exact h.utters trivial nofun
    | ok a =>
      refine h.utters (fun hgranted => ?_) nofun
      obtain ⟨q, hq, -, hhard⟩ := hu hgranted
      obtain ⟨-, hballot⟩ := h.core.vote ⟨q.candidate, q.term⟩ (congrArg HardState.vote hhard)
      exact ⟨q, (hsrc _ hq).1, hballot⟩
  | append a =>
    cases a with
    | error e =>
      cases e with
      | replication e =>
        obtain ⟨q, hq, hterm, hprev, hcontra⟩ := hu
        -- a request never contradicts what is committed
        exact absurd hcontra
          (h.core.not_contradicts h.sound.record (hsrc _ hq).2 hterm hprev)
      | _ => exact h.utters trivial nofun
    | ok a =>
      by_cases hsuccess : a.success = true
      · -- a success is a step of its own: the record learns what the node holds
        obtain ⟨q, hq, hphase, hterm, -, hmatch, hheld⟩ := hu hsuccess
        obtain ⟨hcalls, hoffered⟩ := hsrc _ hq
        have hpart := (h.sound.record.offers q hoffered).2.1
        have hplace := consecutive_of_isPartOf hpart (h.sound.record.term q.term).covers.positioned
        refine h.utters_step (Step.confirm q hphase hoffered hterm (hheld hplace))
          (fun _ => ⟨q, hcalls, ?_⟩) nofun
        rw [hmatch]
        refine Nat.le_trans (Nat.le_max_right (past.record.held p q.term) q.last) ?_
        exact Nat.le_of_eq (if_pos ⟨rfl, rfl⟩).symm
      · exact h.utters (fun hs => absurd hs hsuccess) nofun
  | timeoutNow | transfer => exact h.utters trivial nofun
  | client a =>
    cases a with
    | notLeader | stale => exact h.utters trivial nofun
    | committed c =>
      obtain ⟨q, request, hq, hcheck⟩ := hu
      have hv : past.Vouches p (.answer caller (.client (.committed c))) := trivial
      apply h.utters hv
      rintro _ _ ⟨⟩
      exact ⟨q, hsrc _ hq, h.fits.serves.confirms_of_check (fun _ _ hi => h.covers.positioned _ _ hi)
        h.fits.applier.remembers hcheck⟩

end Utter

/-! ## Followers -/

theorem Outline.Fits.store (h : o.Fits past p) (hphase : o.phase = .idle) (hard : HardState) :
    (o.store hard).Fits past p :=
  { h with
    term_le := Nat.le_refl _
    stored := rfl
    tallied := by
      intro m hm hq
      have hyields := Outline.not_leader_of_idle hphase hm
      rw [show o.queue.any stepsDown = false from hq] at hyields
      cases hyields }

/-- A node commits up to an index, and tells itself. -/
theorem Outline.Fits.advance {i : Nat} (h : o.Fits past p) (hqueue : o.queue = [])
    (hlt : o.commit < i) :
    Outline.Fits past p { o with commit := i, queue := [.newCommit i] } :=
  { h with
    signals := fun j hj => Nat.le_trans (h.signals j hj) (Nat.le_of_lt hlt)
    applier := h.applier.mono (Nat.le_of_lt hlt)
    tallied := fun m hm _ => h.tallied m hm (by rw [hqueue]; rfl)
    queue := .inform i (Nat.le_refl _) }

namespace Placed

theorem adopts (h : Placed cores past p o) {t : Nat} (hphase : o.phase = .idle)
    (ht : o.hard.term < t) : Reaches cores past p (o.store ⟨t, none⟩) := by
  have hcore : (o.store ⟨t, none⟩).core = { o.core with hard := ⟨t, none⟩, phase := .idle } := by
    rw [← hphase]
    rfl
  refine h.steps_quietly ?_ (h.fits.store hphase _)
  rw [hcore]
  exact Step.adopt t ht

theorem grants (h : Placed cores past p o) {q : VoteRequest} (hq : past.record.asked q)
    (hphase : o.phase = .idle) (hterm : q.term = o.hard.term)
    (hfree : ∀ v, o.hard.vote = some v → v.term = q.term → v.candidate = q.candidate)
    (hrecent : Election.isRecent o.lastId.index o.lastId.term q.lastIndex q.lastTerm = true) :
    Reaches cores past p (o.store ⟨q.term, some ⟨q.candidate, q.term⟩⟩) := by
  obtain ⟨hindex, hlterm⟩ := Outline.lastId_eq h.covers
  rw [hindex, hlterm] at hrecent
  exact h.steps (Step.grant q hphase hq hterm hfree hrecent) rfl
    fun g => (h.fits.mono g).store hphase _

theorem merges (h : Placed cores past p o) {q : AppendRequest} {l : List Entry}
    (hq : past.record.offered q) (hphase : o.phase = .idle) (hterm : q.term = o.hard.term)
    (hprev : termAt o.log q.prevIndex = some q.prevTerm)
    (hl : Merged o.commit o.log q.entries l) : Reaches cores past p { o with log := l } :=
  h.steps_quietly (Step.merge q l hphase hq hterm hprev hl)
    { h.fits with
      applier := h.fits.applier.log (hl.take_eq h.commit_le)
      serves := h.serves_log (hl.take_eq h.commit_le) }

/-- To commit is all the same to the core whether or not the loop is told. -/
theorem core_advance {i : Nat} (hqueue : o.queue = []) :
    Outline.core { o with commit := i, queue := [.newCommit i] } = { o.core with commit := i } := by
  have hsame : Outline.phase { o with commit := i, queue := [.newCommit i] } = o.phase :=
    Outline.phase_congr rfl (by rw [hqueue]; rfl)
  exact congrArg (Core.mk o.hard o.log i) hsame

theorem learns (h : Placed cores past p o) {q : AppendRequest} {i : Nat}
    (hq : past.record.offered q) (hphase : o.phase = .idle) (hqueue : o.queue = [])
    (hterm : q.term = o.hard.term)
    (hheld : Consecutive q.prevIndex q.entries → q.HeldBy o.log) (hlt : o.commit < i)
    (hi : i ≤ min q.commit q.last) :
    Reaches cores past p { o with commit := i, queue := [.newCommit i] } := by
  have hpart := (h.sound.record.offers q hq).2.1
  have hplace := consecutive_of_isPartOf hpart (h.sound.record.term q.term).covers.positioned
  refine h.steps_quietly ?_ (h.fits.advance hqueue hlt)
  rw [core_advance hqueue]
  exact Step.learn q i hphase hq hterm (hheld hplace) hi

end Placed

/-! ## Stepping down -/

theorem Outline.Fits.queue_of_yields {past : Past} {l : Option NodeId} {rest : List RoleEvent}
    (h : o.Fits past p) (hqueue : o.queue = .becomeFollower l :: rest) :
    Outline.Orderly past p o.commit rest := by
  have horder := h.queue
  rw [hqueue] at horder
  cases horder with
  | yield => exact .nil
  | postpone _ e he => exact .replay e he

theorem Outline.Fits.queue_eq_nil {past : Past} {e : RoleEvent} {rest : List RoleEvent}
    (h : o.Fits past p) (hqueue : o.queue = e :: rest) (he : stepsDown e = false) : rest = [] := by
  have horder := h.queue
  rw [hqueue] at horder
  cases horder with
  | yield | postpone => cases he
  | _ => rfl

namespace Placed

theorem yields (h : Placed cores past p o) (l : Option NodeId) :
    Reaches cores past p { o with queue := [.becomeFollower l] } := by
  refine h.steps_quietly (Step.rest o.commit (Nat.le_refl _)) ?_
  exact
    { h.fits with
      tallied := nofun
      queue := .yield l }

theorem postpones (h : Placed cores past p o) {e : Event} {l : Option NodeId}
    (he : past.Knows p e) (hqueue : o.queue = [.becomeFollower l]) :
    Reaches cores past p { o with queue := [.becomeFollower l, .replay e] } := by
  have hphase : o.phase = .idle := Outline.phase_of_any (by rw [hqueue]; rfl)
  exact h.stays (congrArg (Core.mk o.hard o.log o.commit) hphase.symm)
    { h.fits with
      tallied := nofun
      queue := .postpone l e he }

theorem settles (h : Placed cores past p o) {l : Option NodeId} {rest : List RoleEvent}
    (hqueue : o.queue = .becomeFollower l :: rest) :
    Reaches cores past p { o with stance := .follower, queue := rest } := by
  have hphase : o.phase = .idle := Outline.phase_of_any (by rw [hqueue]; rfl)
  have hsame : Outline.phase { o with stance := .follower, queue := rest } = o.phase := by
    rw [hphase, Outline.phase_of_follower rfl]
  exact h.stays (congrArg (Core.mk o.hard o.log o.commit) hsame)
    { h.fits with
      tallied := nofun
      queue := h.fits.queue_of_yields hqueue }

/-- A role event that does not ask to step down is queued in an empty queue. -/
theorem asks (h : Placed cores past p o) {e : RoleEvent} (hqueue : o.queue = [])
    (he : stepsDown e = false) (horder : Outline.Orderly past p o.commit [e]) :
    Reaches cores past p { o with queue := [e] } := by
  have hsame : Outline.phase { o with queue := [e] } = o.phase := by
    refine Outline.phase_congr rfl ?_
    rw [hqueue]
    simpa using he
  exact h.stays (congrArg (Core.mk o.hard o.log o.commit) hsame)
    { h.fits with
      tallied := fun m hm _ => h.fits.tallied m hm (by rw [hqueue]; rfl)
      queue := horder }

/-- A role event that does not ask to step down is taken. -/
theorem takes (h : Placed cores past p o) {e : RoleEvent} {rest : List RoleEvent}
    (hqueue : o.queue = e :: rest) (he : stepsDown e = false) :
    Reaches cores past p { o with queue := rest } := by
  have hnil := h.fits.queue_eq_nil hqueue he
  have hany : o.queue.any stepsDown = false := by
    rw [hqueue, hnil]
    simpa using he
  have hsame : Outline.phase { o with queue := rest } = o.phase :=
    Outline.phase_congr rfl (by rw [hany, hnil]; rfl)
  exact h.stays (congrArg (Core.mk o.hard o.log o.commit) hsame)
    { h.fits with
      tallied := fun m hm _ => h.fits.tallied m hm hany
      queue := by
        rw [hnil]
        exact .nil }

end Placed

/-! ## Candidates -/

/-- A node may enter terms before it stands for election. -/
theorem sound_stand {c : Core} {members : List NodeId} {r : Record} {t : Nat}
    (h : Protocol.Sound members (Function.update cores p c) r) (hp : p ∈ members)
    (ht : c.hard.term ≤ t) :
    Protocol.Sound members
        (Function.update cores p ⟨⟨t + 1, some ⟨p, t + 1⟩⟩, c.log, c.commit, .candidate [p]⟩)
        (r.cast p (t + 1) p)
      ∧ r.Grows (r.cast p (t + 1) p) := by
  rcases Nat.lt_or_ge c.hard.term t with hlt | hge
  · obtain ⟨hsound, -⟩ := sound_update h (Step.adopt t hlt)
    exact sound_update hsound (Step.stand hp)
  · obtain rfl : c.hard.term = t := Nat.le_antisymm ht hge
    exact sound_update h (Step.stand hp)

namespace Placed

theorem stands (h : Placed cores past p o) {t : Nat} (hqueue : o.queue = [])
    (ht : o.hard.term ≤ t) :
    Reaches cores past p
      { o.store ⟨t + 1, some ⟨o.self, t + 1⟩⟩ with stance := .candidate [o.self] } := by
  obtain ⟨hsound, g⟩ := sound_stand h.sound h.fits.mem ht
  refine ⟨_, g, ?_, ?_, h.origin⟩
  · have hphase : Outline.phase
        { o.store ⟨t + 1, some ⟨o.self, t + 1⟩⟩ with stance := .candidate [o.self] }
        = .candidate [o.self] := Outline.phase_of_candidate hqueue rfl
    unfold Outline.core
    rw [hphase, h.fits.self]
    exact hsound
  · exact
      { h.fits.mono (grows_record g) with
        term_le := Nat.le_refl _
        stored := rfl
        tallied := nofun }

theorem counts (h : Placed cores past p o) {peer : NodeId} {votes : List NodeId}
    (hpeer : peer ∈ past.members) (hballot : past.record.ballot peer o.hard.term p)
    (hqueue : o.queue = []) (hstance : o.stance = .candidate votes) (hnew : peer ∉ votes) :
    Reaches cores past p { o with stance := .candidate (votes ++ [peer]) } := by
  have hphase : Outline.phase { o with stance := .candidate (votes ++ [peer]) }
      = .candidate (votes ++ [peer]) := Outline.phase_of_candidate hqueue rfl
  have hcore : Outline.core { o with stance := .candidate (votes ++ [peer]) }
      = { o.core with phase := .candidate (votes ++ [peer]) } :=
    congrArg (Core.mk o.hard o.log o.commit) hphase
  refine h.steps_quietly ?_ { h.fits with tallied := nofun }
  rw [hcore]
  exact Step.count votes peer (Outline.phase_of_candidate hqueue hstance) hnew hpeer hballot

theorem wins (h : Placed cores past p o) {votes : List NodeId} (hqueue : o.queue = [])
    (hstance : o.stance = .candidate votes) (hmajority : majority o.voters ≤ votes.length) :
    Reaches cores past p
      { o with
        stance := .leader ((o.members.filter (· ≠ o.self)).foldl (fun m p => m.put p 0) [])
        log := o.log ++ [.noop (o.log.length + 1) o.hard.term] } := by
  generalize hm : (o.members.filter (· ≠ o.self)).foldl (fun m p => PeerMap.put p 0 m) [] = m
  have hphase : Outline.phase
      { o with stance := .leader m, log := o.log ++ [.noop (o.log.length + 1) o.hard.term] }
      = .leader := Outline.phase_of_leader hqueue rfl
  rw [h.fits.voters] at hmajority
  have hwin : Step past.members p o.core past.record _ _ :=
    Step.win votes (Outline.phase_of_candidate hqueue hstance) hmajority
  have hcore := congrArg
    (Core.mk o.hard (o.log ++ [.noop (o.log.length + 1) o.hard.term]) o.commit) hphase
  have hwin' : Step past.members p o.core past.record
      (Outline.core
        { o with stance := .leader m, log := o.log ++ [.noop (o.log.length + 1) o.hard.term] }) _ :=
    hcore ▸ hwin
  refine h.writes hwin' ?_ fun g =>
    { h.fits.mono g with
      applier := h.fits.applier.log (List.take_append_of_le_length h.commit_le)
      serves := (h.serves_log (List.take_append_of_le_length h.commit_le)).mono g
      tallied := by
        intro x hx _
        obtain rfl := Stance.leader.inj hx
        rw [← hm, h.fits.members, h.fits.self]
        exact Outline.tallied_zero { past with record := _ } p _ h.fits.nodup }
  -- a no-op is no command
  intro e he c hc
  obtain rfl := List.singleton_inj.1 (List.append_cancel_left he)
  cases hc

end Placed

/-! ## Leaders -/

theorem Outline.Fits.fresh {past : Past} (h : o.Fits past p) {c : Command} {e : Entry}
    (he : e.payload = .command c)
    (hcheck : o.applier.sessions.check c.client c.sequence = .new)
    (htail : ∀ x ∈ o.log.drop o.applier.lastApplied, x.isRequestOf c.client c.sequence = false) :
    ∀ x ∈ o.log, ¬ x.SameRequest e := by
  rintro x hx ⟨d, d', hd, hd', hclient, hsequence⟩
  rw [he] at hd'
  obtain rfl := Payload.command.inj hd'
  rw [← List.take_append_drop o.applier.lastApplied o.log, List.mem_append] at hx
  rcases hx with hx | hx
  · refine h.applier.recalls x hx d hd ?_
    rw [hclient, hsequence, hcheck]
  · have := htail x hx
    unfold Entry.isRequestOf at this
    rw [hd] at this
    simp [hclient, hsequence] at this

namespace Placed

theorem appends (h : Placed cores past p o) {q : ClientRequest} {caller : Caller} {m : PeerMap}
    (hq : past.Asks caller q) (hqueue : o.queue = []) (hstance : o.stance = .leader m)
    (hcheck : o.applier.sessions.check q.client q.sequence = .new)
    (htail : ∀ x ∈ o.log.drop o.applier.lastApplied, x.isRequestOf q.client q.sequence = false) :
    Reaches cores past p
      { o with log := o.log ++ [.ofCommand (o.log.length + 1) o.hard.term q.toCommand] } := by
  have happend : Step past.members p o.core past.record _ _ :=
    Step.append (.ofCommand (o.log.length + 1) o.hard.term q.toCommand)
      (Outline.phase_of_leader hqueue hstance) rfl rfl
      (h.fits.fresh (c := q.toCommand) rfl hcheck htail)
  refine h.writes happend ?_ fun g =>
    { h.fits.mono g with
      applier := h.fits.applier.log (List.take_append_of_le_length h.commit_le)
      serves := (h.serves_log (List.take_append_of_le_length h.commit_le)).mono g }
  intro e he c hc
  obtain rfl := List.singleton_inj.1 (List.append_cancel_left he)
  exact ⟨caller, q, hq, Payload.command.inj hc⟩

theorem registers (h : Placed cores past p o) {q : ClientRequest} {request : String}
    {caller : Caller} {e : Entry} (hq : past.Asks caller q) (he : e ∈ o.log)
    (hrequest : e.isRequestOf q.client q.sequence = true) :
    Reaches cores past p
      { o with
        applier :=
          { o.applier with
            waiters := o.applier.waiters.register e.index ⟨request, e.term, caller⟩ } } := by
  refine h.stays rfl
    { h.fits with
      applier := { h.fits.applier with }
      serves := h.fits.serves.await ?_ }
  intro i x hx
  rcases Waiters.has_register hx with hold | ⟨rfl, rfl⟩
  · exact h.fits.serves.waiters i x hold
  · obtain ⟨i, hi⟩ := exists_entryAt_of_mem he
    obtain ⟨hindex, hpre⟩ := h.covers i e hi
    refine ⟨q, e, hq, entryAt_of_isPrefix hpre ?_, hrequest⟩
    rw [hindex, entryAt_take (Nat.le_refl i)]
    exact hi

theorem dismisses (h : Placed cores past p o) {w : Waiters}
    (hw : ∀ i x, w.Has i x → o.applier.waiters.Has i x) :
    Reaches cores past p { o with applier := { o.applier with waiters := w } } :=
  h.stays rfl
    { h.fits with
      applier := { h.fits.applier with }
      serves := h.fits.serves.await fun i x hx => h.fits.serves.waiters i x (hw i x hx) }

theorem tallies (h : Placed cores past p o) {peer : NodeId} {m : PeerMap} {i : Nat}
    (hpeer : peer ∈ past.members) (hne : peer ≠ p)
    (hi : i ≤ past.record.held peer o.hard.term) (hstance : o.stance = .leader m) :
    Reaches cores past p
      { o with stance := .leader (m.put peer (max ((m.lookup peer).getD 0) i)) } := by
  generalize hput : m.put peer (max ((m.lookup peer).getD 0) i) = m'
  have hsame : Outline.phase { o with stance := .leader m' } = o.phase := by
    unfold Outline.phase
    rw [hstance]
  refine h.stays (congrArg (Core.mk o.hard o.log o.commit) hsame)
    { h.fits with
      tallied := ?_ }
  intro x hx hq
  obtain rfl := Stance.leader.inj hx
  have htallied := h.fits.tallied m hstance hq
  rw [← hput]
  exact htallied.put hpeer hne (Nat.max_le.2 ⟨htallied.lookup_le, hi⟩)

theorem commits (h : Placed cores past p o) {i : Nat} {m : PeerMap} (hqueue : o.queue = [])
    (hstance : o.stance = .leader m) (hlt : o.commit < i)
    (hterm : (entryAt o.log i).map Entry.term = some o.hard.term)
    (hmajority : majority (m.length + 1)
      ≤ (m.map Prod.snd ++ [o.log.length]).countP fun a => i ≤ a) :
    Reaches cores past p { o with commit := i, queue := [.newCommit i] } := by
  have hphase : o.phase = .leader := Outline.phase_of_leader hqueue hstance
  obtain ⟨-, -, hheld⟩ := h.core.leading hphase
  have htallied := h.fits.tallied m hstance (by rw [hqueue]; rfl)
  obtain ⟨Q, hQ, hQheld⟩ := htallied.quorum h.fits.mem h.fits.nodup
    (Nat.le_of_eq hheld.symm) hmajority
  rw [← termAt_of_pos (Nat.zero_lt_of_lt hlt)] at hterm
  refine h.steps_quietly ?_ (h.fits.advance hqueue hlt)
  rw [core_advance hqueue]
  exact Step.commit i Q hphase hterm (Nat.zero_lt_of_lt hlt) hQ hQheld

theorem informs (h : Placed cores past p o) {i : Nat} {rest : List RoleEvent}
    (hqueue : o.queue = .newCommit i :: rest) :
    Reaches cores past p { o with queue := rest, signals := o.signals ++ [i] } := by
  have hi : i ≤ o.commit := by
    have horder := h.fits.queue
    rw [hqueue] at horder
    cases horder with
    | inform _ hi => exact hi
  obtain ⟨r', g, hplaced⟩ := h.takes hqueue rfl
  refine ⟨r', g, hplaced.sound, { hplaced.fits with signals := ?_ }, hplaced.origin⟩
  intro j hj
  rcases List.mem_append.1 hj with hj | hj
  · exact h.fits.signals j hj
  · rwa [List.mem_singleton.1 hj]

end Placed

/-! ## All moves -/

/-- **Moves are steps.** A node that agrees with the past does so after every move. -/
theorem Move.simulates (h : Placed cores past p o) (hsrc : ∀ e, src = some e → past.Knows p e)
    (hm : Move src o o') : Reaches cores past p o' := by
  cases hm with
  | utter e hu =>
    cases e with
    | send => exact h.sends hu
    | answer => exact h.answers hsrc hu
  | adopt t hphase ht => exact h.adopts hphase ht
  | grant q caller hq hphase hterm hfree hrecent =>
    exact h.grants (hsrc _ hq).2 hphase hterm hfree hrecent
  | merge q caller l hq hphase hterm hprev hl =>
    exact h.merges (hsrc _ hq).2 hphase hterm hprev hl
  | learn q caller i hq hphase hqueue hterm hheld hlt hi =>
    exact h.learns (hsrc _ hq).2 hphase hqueue hterm hheld hlt hi
  | yield l => exact h.yields l
  | postpone e l he hqueue => exact h.postpones (hsrc _ he) hqueue
  | settle l rest hqueue => exact h.settles hqueue
  | summon hqueue => exact h.asks hqueue rfl .stand
  | stand t hqueue _ ht => exact h.stands hqueue ht
  | count peer r votes hr hgranted _ hqueue hstance hnew =>
    obtain ⟨hpeer, hballot⟩ := hsrc _ hr hgranted
    exact h.counts hpeer hballot hqueue hstance hnew
  | elect votes hqueue => exact h.asks hqueue rfl .lead
  | lead votes hqueue hstance hmajority => exact h.wins hqueue hstance hmajority
  | append q request caller m hq hqueue hstance hcheck htail =>
    exact h.appends (hsrc _ hq) hqueue hstance hcheck htail
  | register q request caller e hq he hrequest => exact h.registers (hsrc _ hq) he hrequest
  | dismiss w hw => exact h.dismisses hw
  | tally peer request r m hr hrequest hsuccess hstance =>
    obtain ⟨hpeer, hne, hmatch⟩ := hsrc _ hr
    have hi := hmatch r rfl hsuccess
    rw [hrequest] at hi
    exact h.tallies hpeer hne hi hstance
  | commit i m hqueue hstance hlt hterm hmajority =>
    exact h.commits hqueue hstance hlt hterm hmajority
  | inform i rest hqueue => exact h.informs hqueue
  | take e rest hqueue he => exact h.takes hqueue he

/-- The same over any number of moves. -/
theorem Moves.simulates (h : Placed cores past p o) (hsrc : ∀ e, src = some e → past.Knows p e)
    (hm : Moves src o o') : Reaches cores past p o' := by
  -- the event that is handled stays known, since the record only grows from move to move
  induction hm with
  | refl => exact h.stays rfl h.fits
  | tail _ hmove ih =>
    obtain ⟨r', g, hplaced⟩ := ih
    have hknown : ∀ e, src = some e → Past.Knows { past with record := r' } p e :=
      fun e he => (hsrc e he).mono (grows_record g)
    obtain ⟨r'', g', hplaced'⟩ := Move.simulates hplaced hknown hmove
    exact ⟨r'', g.trans g', hplaced'⟩

/-- A node whose event loop ended is left to start again from what it stored. -/
theorem Breaks.simulates (h : Placed cores past p o) (hsrc : ∀ e, src = some e → past.Knows p e)
    (hb : Breaks src o o') :
    ∃ r', past.record.Grows r'
      ∧ Protocol.Sound past.members (Function.update cores p o'.restCore) r'
      ∧ o'.Rests { past with record := r' } p ∧ Past.Origin { past with record := r' } := by
  obtain ⟨m, hm, hw⟩ := hb
  obtain ⟨r', g, hplaced⟩ := Moves.simulates h hsrc hm
  have hfits := hplaced.fits
  have hrests : o'.Rests { past with record := r' } p := by
    refine ⟨?_, ?_, ?_, ?_, ?_⟩
    · rcases hw.stored with hsame | ⟨t, -, hle, hstored⟩
      · rw [hsame, hfits.stored]
        exact hw.term_le
      · rw [hstored]
        exact hle
    · rw [hw.signals, hw.commit]
      exact hfits.signals
    · rw [hw.effects]
      exact hfits.effects
    · rw [hw.applier, hw.log, hw.commit]
      exact hfits.applier
    · rw [hw.applier, hw.log, hw.effects]
      exact hfits.serves
  obtain ⟨hsound, -⟩ := sound_update hplaced.sound (Step.rest m.commit (Nat.le_refl _))
  refine ⟨r', g, ?_, hrests, hplaced.origin⟩
  unfold Outline.restCore
  rw [hw.log, hw.commit]
  -- the last thing that was stored may be a newer term, which the node entered when it failed
  rcases hw.stored with hsame | ⟨t, ht, -, hstored⟩
  · rw [hsame, hfits.stored]
    exact hsound
  · rw [hstored]
    exact (sound_update hsound (Step.adopt t ht)).1

end Raft.Node
