import Raft.Proofs.Network.Safety

/-!
# What clients can rely on

What a member answers when a request was committed is borne out by a committed log, and committed
logs agree. So answers are true where they are given, there is one answer to a request, whoever
gives it, and requests that follow one another in time follow one another in the log.

* `real_time_order`: a request that was first handled after another one was answered is committed
  behind it.
* `committed_answers`: what a member answers stands in its log, and its state machine has applied
  it; there is one answer to a request.
-/

namespace Raft.Network

open Protocol (Record)

variable {members : List NodeId} {n : Network} {r r' : Record} {p : NodeId} {c d : CommitResult}

/-! ## A schedule -/

/-- The first member hears that its entry is held by a majority, and answers the client, who had sent
its request twice. -/
def answerFirst : List Act := electFirst ++ commitFirst ++ [.result 2, .role 1, .signal 1]

/-- The next request of the client is taken, committed and answered. -/
def answerSecond : List Act :=
  [.propose 1 ⟨"client", 2, [8]⟩ "third", .role 2, .request 5, .result 5, .role 1, .signal 1]

/-- The second member is elected before it knows that the client was answered. It gets the request
again, with other data, and commits the entry that it has with one of its own. -/
def answerAgain : List Act :=
  [.role 2, .setClock 2 1000, .tick 2, .role 2, .request 5, .role 1, .role 1, .result 5, .role 2,
    .propose 2 ⟨"client", 1, [9]⟩ "again", .request 7, .role 1, .result 6, .role 2, .signal 2]

/-! ## Results in committed logs -/

section Bears

variable {past : Past} {client : String} {sequence : Nat}

/-- A committed log bears out one result of a request, if all session tables have the same window. -/
theorem Past.Bears.eq {window : Nat} (hrecord : past.record.Sound past.members)
    (hw : past.Uniform window) (hc : past.Bears client sequence c)
    (hd : past.Bears client sequence d) : c = d := by
  obtain ⟨u, l, data, hsettled, he, hdata⟩ := hc
  obtain ⟨u', l', data', hsettled', he', hdata'⟩ := hd
  have hindex : c.index = d.index := by
    refine hrecord.index_eq_of_settled hsettled hsettled' he he' ?_
    exact ⟨_, _, rfl, rfl, rfl, rfl⟩
  have hentry : entryAt l c.index = entryAt l' c.index :=
    hrecord.entryAt_eq_of_settled hsettled hsettled' (Nat.le_refl _) (Nat.le_of_eq hindex)
  rw [he, hindex, he'] at hentry
  have heq := Option.some.inj hentry
  have hterm : c.term = d.term := congrArg Entry.term heq
  have hcommand := Payload.command.inj (congrArg Entry.payload heq)
  have hresult : data = data' := congrArg Command.data hcommand
  rw [hdata window hw, hdata' window hw] at hresult
  cases c
  cases d
  cases hindex
  cases hterm
  cases hresult
  rfl

/-- What is committed before a place that a committed log bears out was written by then, so that
somebody had asked for it. -/
theorem Sound.asked_of_le {n' : Network} {other : String} {k : Nat} (h : Sound members n r)
    (h' : Sound members n' r') (g : r.Grows r') (hc : (n.past members r).Bears other k c)
    (hd : (n'.past members r').Bears client sequence d) (hle : d.index ≤ c.index) :
    n.Asked client sequence := by
  obtain ⟨u, l, -, hsettled, -, -⟩ := hc
  obtain ⟨u', l', data, hsettled', he', -⟩ := hd
  -- the entry is in the part of the log that was committed then
  have hgrown := g.settled List.prefix_rfl (Nat.le_refl u) hsettled
  have hsame := h'.protocol.record.entryAt_eq_of_settled hsettled' hgrown (Nat.le_refl _) hle
  rw [hsame] at he'
  obtain ⟨t, hmem⟩ := hsettled.mem_ledger he' hle
  obtain ⟨caller, q, hq, heq⟩ := h.origin t _ hmem _ rfl
  refine ⟨q, List.mem_of_getElem? hq, ?_, ?_⟩
  · exact congrArg Command.client heq
  · exact congrArg Command.sequence heq

end Bears

/-- The result that a client was told is borne out. -/
theorem Sound.bears_of_reply (h : Sound members n r) {y : Reply} {q : ClientRequest}
    (hy : y ∈ n.replies) (hc : y.answer = .client (.committed c))
    (hq : n.callers[y.caller]? = some (.client q)) :
    (n.past members r).Bears q.client q.sequence c := by
  obtain ⟨q', hq', hbears⟩ := h.reports y hy c hc
  have hsame := hq.symm.trans hq'
  obtain rfl := Call.client.inj (Option.some.inj hsame)
  exact hbears

/-! ## Real time -/

/-- **Real-time order.** If a request was answered as committed before any member handled another one
for the first time, the index of the other one is the greater one, whoever answers it. -/
theorem real_time_order (cluster : List Member) (whole : NodeId → Bool) (acts later : List Act)
    {y z : Reply} {q : ClientRequest} (hy : y ∈ (run cluster whole acts).replies)
    (hc : y.answer = .client (.committed c))
    (hnew : ¬ (run cluster whole acts).Asked q.client q.sequence)
    (hz : z ∈ (run cluster whole (acts ++ later)).replies)
    (hq : (run cluster whole (acts ++ later)).callers[z.caller]? = some (.client q))
    (hd : z.answer = .client (.committed d)) : c.index < d.index := by
  obtain ⟨r, r', h, g, h'⟩ := exists_sound cluster whole acts later
  obtain ⟨asker, -, hfirst⟩ := h.reports y hy c hc
  have hsecond := h'.bears_of_reply hz hd hq
  rcases Nat.lt_or_ge c.index d.index with hlt | hge
  · exact hlt
  · exact absurd (h.asked_of_le h' g hfirst hsecond hge) hnew

theorem real_time_order_of_trio :
    (run trio strict answerFirst).replies[3]? = some ⟨1, 2, .client (.committed ⟨1, 2, [7]⟩)⟩
      ∧ ¬ (run trio strict answerFirst).Asked "client" 2
      ∧ (run trio strict (answerFirst ++ answerSecond)).replies[6]?
        = some ⟨1, 5, .client (.committed ⟨1, 3, [8]⟩)⟩
      ∧ (run trio strict (answerFirst ++ answerSecond)).callers[5]?
        = some (Call.client ⟨"client", 2, [8]⟩)
      ∧ (2 : Nat) < 3 := by
  obtain ⟨hy, hasked⟩ : (run trio strict answerFirst).replies[3]?
        = some ⟨1, 2, .client (.committed ⟨1, 2, [7]⟩)⟩
      ∧ decide ((run trio strict answerFirst).Asked "client" 2) = false := by cbv
  have hnew := of_decide_eq_false hasked
  obtain ⟨hz, hq⟩ : (run trio strict (answerFirst ++ answerSecond)).replies[6]?
        = some ⟨1, 5, .client (.committed ⟨1, 3, [8]⟩)⟩
      ∧ (run trio strict (answerFirst ++ answerSecond)).callers[5]?
        = some (Call.client ⟨"client", 2, [8]⟩) := by cbv
  exact ⟨hy, hnew, hz, hq, real_time_order trio strict answerFirst answerSecond
    (List.mem_of_getElem? hy) rfl hnew (List.mem_of_getElem? hz) hq rfl⟩

/-! ## Windows -/

theorem windows_onServer (n : Network) (p : NodeId) (f : Server → Server) :
    (n.onServer p f).windows = n.windows := by
  unfold onServer
  split <;> rfl

theorem windows_work (n : Network) (p : NodeId) (w : Work) : (n.work p w).windows = n.windows :=
  windows_onServer n p (workFree w)

theorem windows_deliver (n : Network) (l : Letter) : (n.deliver l).windows = n.windows :=
  windows_work _ _ _

theorem windows_inform (n : Network) (l : Letter) (x : Except Error Response) :
    (n.inform l x).windows = n.windows := windows_work _ _ _

theorem windows_propose (n : Network) (p : NodeId) (q : ClientRequest) (request : String) :
    (n.propose p q request).windows = n.windows := by
  unfold propose
  split
  · exact windows_work _ p _
  · rfl

theorem windows_pass (n : Network) (y : Reply) : (n.pass y).windows = n.windows := by
  unfold pass
  split
  · exact windows_inform _ _ _
  · rfl

theorem windows_crash (n : Network) (p : NodeId) : (n.crash p).windows = n.windows := by
  unfold crash
  split <;> rfl

theorem windows_onStore (n : Network) (p : NodeId) (f : Node.Remains → Node.Remains) :
    (n.onStore p f).windows = n.windows := by
  unfold onStore
  split <;> rfl

theorem windows_start (cluster : List Member) (settings : Settings) (window now : Nat) (seed : Seed)
    (fresh : Bool) : (n.start cluster p settings window now seed fresh).windows = n.windows
      ∨ (n.start cluster p settings window now seed fresh).windows = n.windows ++ [window] := by
  unfold start
  split
  · exact Or.inl rfl
  · split
    · dsimp only
      split
      · exact Or.inr rfl
      · exact Or.inl rfl
    · exact Or.inl rfl

theorem windows_step (cluster : List Member) {window : Nat} {a : Act} (ha : a.UsesWindow window)
    (hn : ∀ w ∈ n.windows, w = window) : ∀ w ∈ (n.step cluster a).windows, w = window := by
  cases a with
  | start p settings v now seed fresh =>
    obtain rfl : v = window := ha v rfl
    show ∀ w ∈ (n.start cluster p settings v now seed fresh).windows, w = v
    rcases n.windows_start (p := p) cluster settings v now seed fresh with hsame | hmore
    · rwa [hsame]
    · rw [hmore]
      intro w hw
      rcases List.mem_append.1 hw with hold | hnew
      · exact hn w hold
      · exact List.mem_singleton.1 hnew
  | crash p =>
    show ∀ w ∈ (n.crash p).windows, w = window
    rwa [windows_crash]
  | disturb p faults saves broken =>
    show ∀ w ∈ (n.onStore p (disturb faults saves broken)).windows, w = window
    rwa [windows_onStore]
  | request k =>
    cases hk : n.sent[k]? with
    | none => simpa only [Network.step, hk] using hn
    | some l => simpa only [Network.step, hk, windows_deliver] using hn
  | result k =>
    cases hk : n.replies[k]? with
    | none => simpa only [Network.step, hk] using hn
    | some y => simpa only [Network.step, hk, windows_pass] using hn
  | failure k e =>
    cases hk : n.sent[k]? with
    | none => simpa only [Network.step, hk] using hn
    | some l => simpa only [Network.step, hk, windows_inform] using hn
  | propose p q request =>
    show ∀ w ∈ (n.propose p q request).windows, w = window
    rwa [windows_propose]
  | tick p =>
    show ∀ w ∈ (n.work p .tick).windows, w = window
    rwa [windows_work]
  | transfer p target =>
    show ∀ w ∈ ((n.call .operator).work p _).windows, w = window
    rwa [windows_work]
  | role p | signal p | round p | withdraw p | setClock p =>
    show ∀ w ∈ (n.onServer p _).windows, w = window
    rwa [windows_onServer]

theorem windows_steps (cluster : List Member) {window : Nat} {acts : List Act}
    (hacts : ∀ a ∈ acts, a.UsesWindow window) (hn : ∀ w ∈ n.windows, w = window) :
    ∀ w ∈ (n.steps cluster acts).windows, w = window := by
  induction acts generalizing n with
  | nil => exact hn
  | cons a acts ih =>
    have hstep := windows_step cluster (hacts a (List.mem_cons_self ..)) hn
    exact ih (fun b hb => hacts b (List.mem_cons_of_mem _ hb)) hstep

theorem uniform_run (cluster : List Member) (whole : NodeId → Bool) {window : Nat}
    {acts : List Act} (hacts : ∀ a ∈ acts, a.UsesWindow window) :
    ((run cluster whole acts).past members r).Uniform window :=
  windows_steps cluster (n := init whole) hacts nofun

/-! ## Truth and agreement -/

/-- A member that reports a result has applied the request. -/
theorem Sound.hasApplied (h : Sound members n r) {window : Nat}
    (hw : (n.past members r).Uniform window) {s : Server} (hs : n.site p = .up s) {caller : Caller}
    (hc : (n.past members r).Reports s.node.log.entries s.node.applier.lastApplied
      s.node.applier.machine.applied caller c) :
    ∃ q, n.callers[caller]? = some (.client q) ∧ n.HasApplied p q c := by
  obtain ⟨q, hq, hstands, hnamed⟩ := hc
  obtain ⟨hentry, hmem⟩ := hnamed window hw
  have hpositioned := h.positioned p
  rw [log_of_up hs] at hpositioned
  have houtput := ((h.serves hs).follows window hw).output?_of_mem hpositioned hmem
  exact ⟨q, hq, s, hs, hstands.1, hentry, hmem, houtput⟩

/-- **Committed answers are true and agree.** When a member answers that a request was committed, it
has applied the request at the place that it names, and its state machine answered as it says. No two
answers to a request differ, whoever gave them. -/
theorem committed_answers (cluster : List Member) (whole : NodeId → Bool) {window : Nat}
    {acts : List Act} (hacts : ∀ a ∈ acts, a.UsesWindow window) :
    (∀ before a, before ++ [a] <+: acts →
      ∀ y ∈ (run cluster whole (before ++ [a])).replies.drop (run cluster whole before).replies.length,
        ∀ c, y.answer = .client (.committed c) →
          ∃ q, (run cluster whole (before ++ [a])).callers[y.caller]? = some (.client q)
            ∧ (run cluster whole (before ++ [a])).HasApplied y.node q c)
      ∧ ∀ y ∈ (run cluster whole acts).replies, ∀ z ∈ (run cluster whole acts).replies, ∀ q q' c d,
        (run cluster whole acts).callers[y.caller]? = some (.client q) →
        (run cluster whole acts).callers[z.caller]? = some (.client q') →
        q.client = q'.client → q.sequence = q'.sequence →
        y.answer = .client (.committed c) → z.answer = .client (.committed d) → c = d := by
  constructor
  · intro before a hpre y hy c hc
    obtain ⟨r, -, h, -, -⟩ := exists_sound cluster whole before []
    obtain ⟨r', -, h', new, hreplies, htells⟩ := h.step a
    have hstep : run cluster whole (before ++ [a]) = (run cluster whole before).step cluster a :=
      run_append cluster whole before [a]
    have hwindow : ((run cluster whole (before ++ [a])).past (cluster.map Member.id) r').Uniform
        window := uniform_run cluster whole fun b hb => hacts b (hpre.mem hb)
    rw [hstep] at hy hwindow ⊢
    rw [hreplies, List.drop_left] at hy
    obtain ⟨s, hs, hreports⟩ := htells y hy c hc
    exact h'.hasApplied hwindow hs hreports
  · intro y hy z hz q q' c d hq hq' hclient hsequence hc hd
    obtain ⟨r, -, h, -, -⟩ := exists_sound cluster whole acts []
    -- both answers are borne out by committed logs, which bear out one result
    have hfirst := h.bears_of_reply hy hc hq
    have hsecond := h.bears_of_reply hz hd hq'
    rw [← hclient, ← hsequence] at hsecond
    exact hfirst.eq h.protocol.record (uniform_run cluster whole hacts) hsecond

theorem committed_answers_of_trio :
    (∀ a ∈ answerFirst ++ answerAgain ++ [Act.signal 2], a.UsesWindow 16)
      ∧ ((run trio strict (answerFirst ++ answerAgain ++ [Act.signal 2])).replies.drop
          (run trio strict (answerFirst ++ answerAgain)).replies.length)[0]?
        = some ⟨2, 6, .client (.committed ⟨1, 2, [7]⟩)⟩
      ∧ (∃ q, (run trio strict (answerFirst ++ answerAgain ++ [Act.signal 2])).callers[6]?
          = some (.client q)
        ∧ (run trio strict (answerFirst ++ answerAgain ++ [Act.signal 2])).HasApplied 2 q ⟨1, 2, [7]⟩)
      ∧ (run trio strict (answerFirst ++ answerAgain ++ [Act.signal 2])).replies[3]?
        = some ⟨1, 2, .client (.committed ⟨1, 2, [7]⟩)⟩
      ∧ (⟨1, 2, [7]⟩ : CommitResult) = ⟨1, 2, [7]⟩ := by
  have hacts : ∀ a ∈ answerFirst ++ answerAgain ++ [Act.signal 2], a.UsesWindow 16 := by
    decide
  obtain ⟨htrue, hagree⟩ := committed_answers trio strict hacts
  obtain ⟨hold, hnew, hfirst, hagain⟩ :
      (run trio strict (answerFirst ++ answerAgain ++ [Act.signal 2])).replies[3]?
          = some ⟨1, 2, .client (.committed ⟨1, 2, [7]⟩)⟩
        ∧ ((run trio strict (answerFirst ++ answerAgain ++ [Act.signal 2])).replies.drop
          (run trio strict (answerFirst ++ answerAgain)).replies.length)[0]?
          = some ⟨2, 6, .client (.committed ⟨1, 2, [7]⟩)⟩
        ∧ (run trio strict (answerFirst ++ answerAgain ++ [Act.signal 2])).callers[2]?
          = some (Call.client ⟨"client", 1, [7]⟩)
        ∧ (run trio strict (answerFirst ++ answerAgain ++ [Act.signal 2])).callers[6]?
          = some (Call.client ⟨"client", 1, [9]⟩) := by cbv
  have hmem := List.mem_of_getElem? hnew
  refine ⟨hacts, hnew, ?_, hold, ?_⟩
  · exact htrue (answerFirst ++ answerAgain) (.signal 2) List.prefix_rfl _ hmem _ rfl
  · exact hagree _ (List.mem_of_getElem? hold) _ (List.mem_of_mem_drop hmem) _ _ _ _ hfirst hagain
      rfl rfl rfl rfl

end Raft.Network
