import Raft.Proofs.Network.Servers

/-!
# Runs of a cluster

Every act keeps the cluster in agreement with a record of what was done, and the record grows. So the
invariant of the protocol speaks of every state that a cluster reaches, and of any two of them.

* `Reply.Tells past n y`: a client is told what the member that answers has applied.
* `Sound.step`: one act, with its replies.
* `Sound.steps`: any number of acts.
* `exists_sound`: every run has a record.
-/

namespace Raft.Network

open Protocol (Core Record)

variable {members : List NodeId} {n : Network} {r : Record} {p : NodeId} {s : Server}

/-- A client is told what the member that answers has applied. -/
def Reply.Tells (past : Past) (n : Network) (y : Reply) : Prop :=
  ∀ c, y.answer = .client (.committed c) → ∃ s, n.site y.node = .up s
    ∧ past.Reports s.node.log.entries s.node.applier.lastApplied s.node.applier.machine.applied
      y.caller c

/-- An act leads to a cluster that agrees with a record that has grown, and gives replies. -/
def Grown (members : List NodeId) (r : Record) (n n' : Network) : Prop :=
  ∃ r', r.Grows r' ∧ Sound members n' r'
    ∧ ∃ new, n'.replies = n.replies ++ new ∧ ∀ y ∈ new, y.Tells (n'.past members r') n'

/-- An act without replies. -/
theorem Grown.quiet {n' : Network} {r' : Record} (g : r.Grows r') (h : Sound members n' r')
    (hreplies : n'.replies = n.replies) : Grown members r n n' := by
  refine ⟨r', g, h, [], ?_, nofun⟩
  rw [hreplies, List.append_nil]

theorem past_grows {r' : Record} (g : r.Grows r') :
    (n.past members r).Grows (n.past members r') :=
  ⟨rfl, List.prefix_rfl, List.Subset.refl _, g⟩

/-! ## Effects -/

/-- What a server makes visible, its apply loop included, is on record. -/
theorem vouches_effects {past : Past} (h : s.node.outline.Rests past p) :
    ∀ e ∈ s.takeEffects.1, past.Vouches p e := by
  intro e he
  rcases List.mem_append.1 he with he | he
  · exact h.effects e he
  · obtain ⟨x, -, rfl⟩ := List.mem_map.1 he
    trivial

theorem holds_of_vouches {past : Past} {effects : List Effect}
    (h : ∀ e ∈ effects, past.Vouches p e) :
    ∀ l ∈ effects.filterMap fun e => e.request?.map fun x => (⟨p, x.1, x.2⟩ : Letter),
      past.Holds l := by
  intro l hl
  obtain ⟨e, he, hl⟩ := List.mem_filterMap.1 hl
  have := h e he
  cases e with
  | send target q =>
    obtain rfl := Option.some.inj hl
    exact this
  | answer => cases hl

theorem effect_of_reply {effects : List Effect} {y : Reply}
    (hy : y ∈ effects.filterMap fun e => e.answer?.map fun x => (⟨p, x.1, x.2⟩ : Reply)) :
    y.node = p ∧ .answer y.caller y.answer ∈ effects := by
  obtain ⟨e, he, hy⟩ := List.mem_filterMap.1 hy
  cases e with
  | send => cases hy
  | answer caller a =>
    obtain rfl := Option.some.inj hy
    exact ⟨rfl, he⟩

/-- A client hears of a commit from the event loop or from the apply loop. -/
theorem tells_of_serves {past : Past}
    (h : past.Serves s.node.log.entries s.node.applier s.node.outline.effects) {caller : Caller}
    {c : CommitResult} (hc : .answer caller (.client (.committed c)) ∈ s.takeEffects.1) :
    past.Reports s.node.log.entries s.node.applier.lastApplied s.node.applier.machine.applied
      caller c := by
  rcases List.mem_append.1 hc with hloop | hanswer
  · exact h.effects caller c hloop
  · obtain ⟨x, hx, heq⟩ := List.mem_map.1 hanswer
    obtain ⟨rfl, hsecond⟩ := Effect.answer.inj heq
    have hresponse := Answer.client.inj hsecond
    refine h.answers x.1 c ?_
    rw [← hresponse]
    exact hx

theorem put_site_self (n : Network) (s : Site) : (n.put p s).site p = s :=
  Function.update_self _ _ _

theorem put_site_of_ne (n : Network) (s : Site) {q : NodeId} (h : q ≠ p) :
    (n.put p s).site q = n.site q := Function.update_of_ne h _ _

theorem put_put (n : Network) (s s' : Site) : (n.put p s).put p s' = n.put p s' := by
  unfold put
  rw [Function.update_idem]

theorem cores_put (n : Network) (s : Site) :
    (n.put p s).cores = Function.update n.cores p s.core := by
  funext q
  unfold cores
  rcases eq_or_ne q p with rfl | hq
  · rw [put_site_self, Function.update_self]
  · rw [put_site_of_ne n s hq, Function.update_of_ne hq]

namespace Sound

theorem put (h : Sound members n r) {s : Site} {r' : Record} (g : r.Grows r')
    (hsound : Protocol.Sound members (Function.update n.cores p s.core) r')
    (hfits : s.Fits (n.past members r') p) (horigin : (n.past members r').Origin) :
    Sound members (n.put p s) r' where
  protocol := by rwa [cores_put]
  site q := by
    rcases eq_or_ne q p with rfl | hq
    · rw [put_site_self]
      exact hfits
    · rw [put_site_of_ne n s hq]
      exact (h.site q).mono (past_grows g)
  origin := horigin
  sent l hl := (h.sent l hl).mono (past_grows g)
  callers l hl := (h.callers l hl).mono (past_grows g)
  replies y hy := (h.replies y hy).mono (past_grows g)
  reports y hy c hc := by
    obtain ⟨q, hq, hbears⟩ := h.reports y hy c hc
    exact ⟨q, hq.mono (past_grows g), hbears.mono (past_grows g)⟩

theorem grown_put (h : Sound members n r) {s : Site} (hc : Continues members n r p s) :
    Grown members r n (n.put p s) := by
  obtain ⟨r', g, hsound, hfits, horigin⟩ := hc
  exact .quiet g (h.put g hsound hfits horigin) rfl

theorem taken (h : Sound members n r) (hs : n.site p = .up s) :
    Sound members (n.put p (.up s.takeEffects.2)) r := by
  have hrests := h.rests hs
  have hrests' : s.takeEffects.2.node.outline.Rests (n.past members r) p :=
    { hrests with
      effects := nofun
      applier := { hrests.applier with }
      serves := hrests.serves.taken }
  have hcore : (Site.up s.takeEffects.2).core = n.cores p := by
    unfold cores
    rw [hs]
    rfl
  refine h.put (Record.Grows.refl r) ?_ ?_ h.origin
  · rw [hcore, Function.update_eq_self]
    exact h.protocol
  · cases hrun : s.isRunning with
    | true =>
      have hfits := (h.placed hs hrun).fits
      exact (Site.fits_up (s := s.takeEffects.2) hrun).2 { hfits with toRests := hrests' }
    | false => exact (Site.fits_ended (s := s.takeEffects.2) hrun).2 hrests'

/-- What a member committed is settled, in a term that it has reached. -/
theorem settled_of_commits {t i : Nat} (h : Sound members n r) (hc : n.Commits p t i) :
    ∃ u, u ≤ t ∧ r.Settled members u (n.log p).entries i := by
  obtain ⟨s, hs, hi, rfl⟩ := hc
  have hsettled := (h.core p).settled
  rw [core_log] at hsettled
  refine ⟨_, ?_, hsettled.of_le ?_⟩
  · rw [hs]
    cases hrun : s.isRunning with
    | true =>
      rw [Site.core_up hrun]
      exact Nat.le_refl _
    | false =>
      rw [Site.core_ended hrun]
      exact (h.rests hs).term_le
  · rw [hs, Site.core_commit]
    exact hi

/-- What a member has applied, its committed log bears out. -/
theorem bears (h : Sound members n r) (hs : n.site p = .up s) {caller : Caller} {c : CommitResult}
    (hc : (n.past members r).Reports s.node.log.entries s.node.applier.lastApplied
      s.node.applier.machine.applied caller c) :
    ∃ q, (n.past members r).Asks caller q ∧ (n.past members r).Bears q.client q.sequence c := by
  obtain ⟨q, hq, ⟨hle, data, he⟩, hnamed⟩ := hc
  have happlied := (h.applier hs).applied
  obtain ⟨u, -, hsettled⟩ := h.settled_of_commits ⟨s, hs, Nat.le_trans hle happlied, rfl⟩
  rw [log_of_up hs] at hsettled
  refine ⟨q, hq, u, s.node.log.entries, data, hsettled, he, ?_⟩
  intro window hw
  have hentry := (hnamed window hw).entry
  rw [he] at hentry
  have hcommand := Payload.command.inj (congrArg Entry.payload (Option.some.inj hentry))
  exact congrArg Command.data hcommand

/-- Letters and replies that agree with the record are added. -/
theorem publish (h : Sound members n r) {letters : List Letter} {replies : List Reply}
    (hletters : ∀ l ∈ letters, (n.past members r).Holds l)
    (hreplies : ∀ y ∈ replies, (n.past members r).Vouches y.node (.answer y.caller y.answer))
    (hreports : ∀ y ∈ replies, ∀ c, y.answer = .client (.committed c) →
      ∃ q, (n.past members r).Asks y.caller q
        ∧ (n.past members r).Bears q.client q.sequence c) :
    Sound members { n with sent := n.sent ++ letters, replies := n.replies ++ replies } r where
  protocol := h.protocol
  site := h.site
  origin := h.origin
  sent l hl := (List.mem_append.1 hl).elim (h.sent l) (hletters l)
  callers := h.callers
  replies y hy := (List.mem_append.1 hy).elim (h.replies y) (hreplies y)
  reports y hy := (List.mem_append.1 hy).elim (h.reports y) (hreports y)

/-- A server goes on, and what it made visible is under way. -/
theorem grown_settle (h : Sound members n r) (hc : Continues members n r p (.up s)) :
    Grown members r n (n.settle p s) := by
  obtain ⟨r', g, hprotocol, hfits, horigin⟩ := hc
  have hput := h.put g hprotocol hfits horigin
  have hs : (n.put p (.up s)).site p = .up s := put_site_self n (.up s)
  have htaken := hput.taken hs
  rw [put_put] at htaken
  have hvouches := vouches_effects (hput.rests hs)
  have htells : ∀ y ∈ s.takeEffects.1.filterMap
      fun e => e.answer?.map fun x => (⟨p, x.1, x.2⟩ : Reply),
      ∀ c, y.answer = .client (.committed c) → (n.past members r').Reports s.node.log.entries
        s.node.applier.lastApplied s.node.applier.machine.applied y.caller c := by
    intro y hy c hc
    have hmem := (effect_of_reply hy).2
    rw [hc] at hmem
    exact tells_of_serves (hput.serves hs) hmem
  refine ⟨r', g, htaken.publish (holds_of_vouches hvouches) ?_ ?_, _, rfl, ?_⟩
  · intro y hy
    obtain ⟨hnode, hmem⟩ := effect_of_reply hy
    rw [hnode]
    exact hvouches _ hmem
  · exact fun y hy c hc => hput.bears hs (htells y hy c hc)
  · intro y hy c hc
    refine ⟨s.takeEffects.2, ?_, htells y hy c hc⟩
    rw [(effect_of_reply hy).1]
    exact put_site_self n _

theorem grown_self (h : Sound members n r) : Grown members r n n :=
  .quiet (Record.Grows.refl r) h rfl

theorem grown_onServer (h : Sound members n r) {f : Server → Server}
    (hf : ∀ s, n.site p = .up s → Continues members n r p (.up (f s))) :
    Grown members r n (n.onServer p f) := by
  unfold onServer
  split
  · rename_i s hs
    exact h.grown_settle (hf s hs)
  · exact h.grown_self

theorem grown_work (h : Sound members n r) {w : Work} (hw : ∀ e, w ≠ .role e)
    (hsrc : ∀ e, w.source = some e → (n.past members r).Knows p e) :
    Grown members r n (n.work p w) := h.grown_onServer fun _ hs => h.continues_work hs hw hsrc

theorem grown_event (h : Sound members n r) {e : Event} (he : (n.past members r).Knows p e) :
    Grown members r n (n.work p (.event e)) := by
  refine h.grown_work nofun fun x hx => ?_
  obtain rfl := Option.some.inj hx
  exact he

/-! ## Messages -/

/-- More callers and session tables come. -/
theorem widen (h : Sound members n r) {n' : Network} (hsite : n'.site = n.site)
    (hsent : n'.sent = n.sent) (hreplies : n'.replies = n.replies)
    (hcallers : n.callers <+: n'.callers) (hwindows : n.windows ⊆ n'.windows)
    (hletters : ∀ l, .letter l ∈ n'.callers → .letter l ∈ n.callers ∨ (n.past members r).Holds l) :
    Sound members n' r := by
  have hpast : (n.past members r).Grows (n'.past members r) :=
    ⟨rfl, hcallers, hwindows, Record.Grows.refl r⟩
  constructor
  · have hcores : n'.cores = n.cores := by
      unfold cores
      rw [hsite]
    rw [hcores]
    exact h.protocol
  · intro p
    rw [hsite]
    exact (h.site p).mono hpast
  · intro t e he c hc
    obtain ⟨caller, q, hq, heq⟩ := h.origin t e he c hc
    exact ⟨caller, q, hq.mono hpast, heq⟩
  · intro l hl
    rw [hsent] at hl
    exact (h.sent l hl).mono hpast
  · intro l hl
    rcases hletters l hl with hold | hnew
    · exact (h.callers l hold).mono hpast
    · exact hnew.mono hpast
  · intro y hy
    rw [hreplies] at hy
    exact (h.replies y hy).mono hpast
  · intro y hy c hc
    rw [hreplies] at hy
    obtain ⟨q, hq, hbears⟩ := h.reports y hy c hc
    exact ⟨q, hq.mono hpast, hbears.mono hpast⟩

/-- A caller is taken. Only letters are judged. -/
theorem call (h : Sound members n r) {x : Call}
    (hx : ∀ l, x = .letter l → (n.past members r).Holds l) : Sound members (n.call x) r := by
  refine h.widen rfl rfl rfl (List.prefix_append _ _) (List.Subset.refl _) ?_
  intro l hl
  refine (List.mem_append.1 hl).imp_right fun hnew => ?_
  exact hx l (List.mem_singleton.1 hnew).symm

theorem equip (h : Sound members n r) (window : Nat) : Sound members (n.equip window) r :=
  h.widen rfl rfl rfl List.prefix_rfl (List.subset_append_left _ _) fun _ hl => Or.inl hl

theorem callers_call (n : Network) (x : Call) : (n.call x).callers[n.nextCaller]? = some x :=
  List.getElem?_concat_length

theorem grown_deliver (h : Sound members n r) {l : Letter} (hl : (n.past members r).Holds l) :
    Grown members r n (n.deliver l) := by
  have hcall : Sound members (n.call (.letter l)) r := by
    apply h.call
    rintro _ ⟨⟩
    exact hl
  have hcaller := callers_call n (.letter l)
  refine hcall.grown_event ?_
  obtain ⟨source, target, q⟩ := l
  obtain ⟨-, -, hq⟩ := hl
  cases q with
  | vote q => exact ⟨⟨source, hcaller⟩, hq.2⟩
  | append q => exact ⟨⟨source, hcaller⟩, hq⟩
  | timeoutNow q => trivial

theorem grown_propose (h : Sound members n r) (q : ClientRequest) (request : String) :
    Grown members r n (n.propose p q request) := by
  unfold propose
  split
  · exact (h.call fun _ hx => by cases hx).grown_event (callers_call n (.client q))
  · exact h.grown_self

/-- That there is no answer is no news. -/
theorem grown_inform_error (h : Sound members n r) {l : Letter}
    (hl : (n.past members r).Holds l) (e : Error) : Grown members r n (n.inform l (.error e)) := by
  refine h.grown_event ?_
  obtain ⟨source, target, q⟩ := l
  obtain ⟨htarget, hne, -⟩ := hl
  cases q with
  | append q => exact ⟨htarget, hne, nofun⟩
  | vote | timeoutNow => trivial

theorem eq_vote_of_response? {a : Answer} {x : VoteResponse}
    (h : a.response? = some (.ok (.vote x))) : a = .vote (.ok x) := by
  rcases a with (e | z) | (e | z) | (e | z) | z | z <;> cases h
  rfl

theorem eq_append_of_response? {a : Answer} {x : AppendResponse}
    (h : a.response? = some (.ok (.append x))) : a = .append (.ok x) := by
  rcases a with (e | z) | (e | z) | (e | z) | z | z <;> cases h
  rfl

theorem knows_result (h : Sound members n r) {y : Reply} {l : Letter} {a : Except Error Response}
    (hy : y ∈ n.replies) (hl : n.callers[y.caller]? = some (.letter l))
    (ha : y.answer.response? = some a) :
    (n.past members r).Knows l.source (l.request.resultEvent l.target a) := by
  obtain ⟨htarget, hne, hrequest⟩ := h.callers l (List.mem_of_getElem? hl)
  have hvouches := h.replies y hy
  -- a caller stands for one letter, so that what was answered is what the sender asked
  have hcalls : ∀ q, (n.past members r).Calls y.node y.caller q →
      l.target = y.node ∧ l.request = q := by
    rintro q ⟨source, hq⟩
    rw [show (n.past members r).callers = n.callers from rfl, hl] at hq
    obtain rfl := Call.letter.inj (Option.some.inj hq)
    exact ⟨rfl, rfl⟩
  obtain ⟨source, target, q⟩ := l
  generalize y.answer = answer at ha hvouches
  cases q with
  | timeoutNow q =>
    rcases a with e | (x | x | x) <;> trivial
  | vote q =>
    rcases a with e | (x | x | x)
    · trivial
    · intro hgranted
      obtain rfl := eq_vote_of_response? ha
      obtain ⟨q', hq', hballot⟩ := hvouches hgranted
      obtain ⟨rfl, hsame⟩ := hcalls _ hq'
      obtain rfl := Request.vote.inj hsame
      obtain rfl : q.candidate = source := hrequest.1
      exact ⟨htarget, hballot⟩
    · trivial
    · trivial
  | append q =>
    rcases a with e | (x | x | x)
    · exact ⟨htarget, hne, nofun⟩
    · exact ⟨htarget, hne, nofun⟩
    · refine ⟨htarget, hne, fun z hz hsuccess => ?_⟩
      obtain rfl := Except.ok.inj hz
      obtain rfl := eq_append_of_response? ha
      obtain ⟨q', hq', hmatch⟩ := hvouches hsuccess
      obtain ⟨rfl, hsame⟩ := hcalls _ hq'
      obtain rfl := Request.append.inj hsame
      exact hmatch
    · exact ⟨htarget, hne, nofun⟩

theorem grown_pass (h : Sound members n r) {y : Reply} (hy : y ∈ n.replies) :
    Grown members r n (n.pass y) := by
  unfold pass
  split
  · rename_i l a hl ha
    exact h.grown_event (h.knows_result hy hl ha)
  · exact h.grown_self

/-! ## Acts -/

theorem grown_onStore (h : Sound members n r) (faults : LogFaults) (saves : Option Nat)
    (broken : Bool) : Grown members r n (n.onStore p (disturb faults saves broken)) := by
  unfold onStore
  split
  · rename_i s hs
    exact h.grown_put (h.continues_disturb hs faults saves broken)
  · rename_i x hx
    have hcores : n.cores p = (Site.down x).core := congrArg Site.core hx
    refine h.grown_put (h.continues_down _ (by rw [hcores]; rfl) (by rw [hcores]; rfl)
      (by rw [hcores]; exact Nat.le_refl _) ?_)
    intro window hw
    obtain ⟨t, ht⟩ := h.leaves hx window hw
    exact ⟨t, ht.congr rfl rfl rfl⟩

theorem grown_crash (h : Sound members n r) : Grown members r n (n.crash p) := by
  unfold crash
  split
  · rename_i s hs
    exact h.grown_put (h.continues_crash hs)
  · exact h.grown_self

theorem grown_start {cluster : List Member} (h : Sound (cluster.map Member.id) n r)
    (settings : Settings) (window now : Nat) (seed : Seed) (fresh : Bool) :
    Grown (cluster.map Member.id) r n (n.start cluster p settings window now seed fresh) := by
  unfold start
  split
  · exact h.grown_self
  · rename_i x hx
    split
    · rename_i hc
      obtain ⟨hmembers, hnode⟩ := hc
      dsimp only
      split
      · rename_i s hs
        have hequip := h.equip window
        have hwindow : window ∈ (n.equip window).windows :=
          List.mem_append_right _ (List.mem_singleton_self _)
        -- what is started over is what was left, but for a state machine that may be fresh
        refine hequip.grown_put
          (hequip.continues_start hx (by rw [hmembers]) hnode ?_ ?_ ?_ ?_ hwindow hs)
        · cases fresh <;> rfl
        · cases fresh <;> rfl
        · cases fresh
          · exact Nat.le_refl _
          · exact Nat.zero_le _
        · cases fresh
          · exact hequip.leaves hx
          · exact fun w _ => ⟨_, Machine.follows_fresh w _ _⟩
      · exact h.grown_self
    · exact h.grown_self

/-- **One act.** It keeps the cluster in agreement with a record that grows. -/
theorem step {cluster : List Member} (h : Sound (cluster.map Member.id) n r) (a : Act) :
    Grown (cluster.map Member.id) r n (n.step cluster a) := by
  cases a with
  | start p settings window now seed fresh => exact h.grown_start settings window now seed fresh
  | crash p => exact h.grown_crash
  | role p => exact h.grown_onServer fun _ hs => h.continues_workRole hs
  | tick p => exact h.grown_work nofun nofun
  | request k =>
    unfold Network.step
    dsimp only
    split
    · rename_i l hl
      exact h.grown_deliver (h.sent l (List.mem_of_getElem? hl))
    · exact h.grown_self
  | result k =>
    unfold Network.step
    dsimp only
    split
    · rename_i y hy
      exact h.grown_pass (List.mem_of_getElem? hy)
    · exact h.grown_self
  | failure k e =>
    unfold Network.step
    dsimp only
    split
    · rename_i l hl
      exact h.grown_inform_error (h.sent l (List.mem_of_getElem? hl)) e
    · exact h.grown_self
  | propose p q request => exact h.grown_propose q request
  | transfer p target => exact (h.call fun _ hx => by cases hx).grown_event trivial
  | signal p => exact h.grown_onServer fun _ hs => h.continues_takeSignal hs
  | round p => exact h.grown_onServer fun _ hs => h.continues_applyRound hs
  | withdraw p request => exact h.grown_onServer fun _ hs => h.continues_withdraw hs request
  | setClock p now => exact h.grown_onServer fun _ hs => h.continues_setClock hs now
  | disturb p faults saves broken => exact h.grown_onStore faults saves broken

theorem steps {cluster : List Member} (h : Sound (cluster.map Member.id) n r) (acts : List Act) :
    ∃ r', r.Grows r' ∧ Sound (cluster.map Member.id) (n.steps cluster acts) r' := by
  induction acts generalizing n r with
  | nil => exact ⟨r, Record.Grows.refl r, h⟩
  | cons a acts ih =>
    obtain ⟨r', g, h', -⟩ := h.step a
    obtain ⟨r'', g', h''⟩ := ih h'
    exact ⟨r'', g.trans g', h''⟩

end Sound

/-- Every run has a record, and every continuation of it one that has grown. -/
theorem exists_sound (cluster : List Member) (whole : NodeId → Bool) (acts later : List Act) :
    ∃ r r', Sound (cluster.map Member.id) (run cluster whole acts) r ∧ r.Grows r'
      ∧ Sound (cluster.map Member.id) (run cluster whole (acts ++ later)) r' := by
  obtain ⟨r, -, h⟩ := (sound_init (cluster.map Member.id) whole).steps acts
  obtain ⟨r', g, h'⟩ := h.steps later
  refine ⟨r, r', h, g, ?_⟩
  rwa [run_append]

end Raft.Network
