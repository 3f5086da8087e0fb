import Raft.Proofs.Network.Past
import Raft.Proofs.Apply.Applier
import Raft.Proofs.Apply.Replay
import Raft.Proofs.Apply.Waiters

/-!
# What clients are told

A node tells a client that its request was committed from its session table, or when it applies an
entry that the client waits for. Either way the result is that of the request, at its place in the
applied part of the node's log.

* `Past.Confirms past l k applied q c`: the result `c` is that of the request `q` in the log `l`.
* `Past.Serves past l a effects`: what a node owes and tells its clients is right.
* `Past.Serves.conclude`: it stays so when an entry is applied.
-/

namespace Raft.Network.Past

/-- A result is that of a request in the first `k` entries of a log. If all session tables have the
same window, it is what the state machine answered there. -/
structure Confirms (past : Past) (l : List Entry) (k : Nat) (applied : List Applied)
    (q : ClientRequest) (c : CommitResult) : Prop where
  stands : Stands l k q.client q.sequence c
  named : ∀ window, past.Uniform window → Replay.Names l applied q.client q.sequence c

/-- What a caller is told is the result of its request. -/
def Reports (past : Past) (l : List Entry) (k : Nat) (applied : List Applied) (caller : Caller)
    (c : CommitResult) : Prop := ∃ q, past.Asks caller q ∧ past.Confirms l k applied q c

/-- What a node owes and tells its clients is right. -/
structure Serves (past : Past) (l : List Entry) (a : Applier) (effects : List Effect) : Prop where
  waiters : ∀ i x, a.waiters.Has i x → past.Awaits i x
  effects : ∀ caller c, Effect.answer caller (.client (.committed c)) ∈ effects →
    past.Reports l a.lastApplied a.machine.applied caller c
  answers : ∀ caller c, (caller, ClientResponse.committed c) ∈ a.answers →
    past.Reports l a.lastApplied a.machine.applied caller c
  follows : ∀ window, past.Uniform window →
    a.machine.Follows window l a.lastApplied a.sessions

variable {past past' : Past} {l l' : List Entry} {a b : Applier} {effects : List Effect}
  {q : ClientRequest} {c : CommitResult} {caller : Caller} {k j commit : Nat} {e : Entry}
  {r : Option CommitResult} {applied applied' : List Applied}

/-! ## Growth -/

theorem Confirms.mono (g : past.Grows past') (h : past.Confirms l k applied q c) :
    past'.Confirms l k applied q c :=
  ⟨h.stands, fun window hw => h.named window (hw.anti g)⟩

theorem Reports.mono (g : past.Grows past') (h : past.Reports l k applied caller c) :
    past'.Reports l k applied caller c := by
  obtain ⟨q, hq, hc⟩ := h
  exact ⟨q, hq.mono g, hc.mono g⟩

theorem Serves.mono (g : past.Grows past') (h : past.Serves l a effects) :
    past'.Serves l a effects where
  waiters i x hx := (h.waiters i x hx).mono g
  effects caller c hc := (h.effects caller c hc).mono g
  answers caller c hc := (h.answers caller c hc).mono g
  follows window hw := h.follows window (hw.anti g)

theorem Confirms.log (h : past.Confirms l k applied q c) (hl : l'.take k = l.take k) :
    past.Confirms l' k applied q c := by
  refine ⟨h.stands.log hl, fun window hw => ?_⟩
  obtain ⟨hentry, happlied⟩ := h.named window hw
  refine ⟨?_, happlied⟩
  rw [entryAt_congr hl h.stands.1]
  exact hentry

theorem Reports.log (h : past.Reports l k applied caller c) (hl : l'.take k = l.take k) :
    past.Reports l' k applied caller c := by
  obtain ⟨q, hq, hc⟩ := h
  exact ⟨q, hq, hc.log hl⟩

theorem Serves.log (h : past.Serves l a effects) (ha : a.lastApplied ≤ commit)
    (hl : l'.take commit = l.take commit) : past.Serves l' a effects := by
  have htake := Applier.take_applied ha hl
  constructor
  · exact h.waiters
  · exact fun caller c hc => (h.effects caller c hc).log htake
  · exact fun caller c hc => (h.answers caller c hc).log htake
  · exact fun window hw => (h.follows window hw).log htake

theorem Reports.later (h : past.Reports l k applied caller c) (hkj : k ≤ j)
    (happlied : applied ⊆ applied') : past.Reports l j applied' caller c := by
  obtain ⟨q, hq, hstands, hnamed⟩ := h
  refine ⟨q, hq, hstands.mono hkj, fun window hw => ?_⟩
  obtain ⟨hentry, hmem⟩ := hnamed window hw
  exact ⟨hentry, happlied hmem⟩

/-! ## Session tables -/

/-- What the session table knows about a request is its result. -/
theorem Serves.confirms_of_check (h : past.Serves l a effects) (hl : Positioned l)
    (hremembers : a.sessions.Each (Stands l a.lastApplied))
    (hcheck : a.sessions.check q.client q.sequence = .applied c) :
    past.Confirms l a.lastApplied a.machine.applied q c := by
  refine ⟨hremembers.of_check hcheck, fun window hw => ?_⟩
  have hfollows := h.follows window hw
  have hnamed := Replay.named (w := window) hl a.lastApplied
  rw [hfollows.replay] at hnamed
  exact hnamed.of_check hcheck

/-! ## Effects and waiters -/

theorem Serves.utter (h : past.Serves l a effects) {x : Effect}
    (hx : ∀ caller c, x = .answer caller (.client (.committed c)) →
      past.Reports l a.lastApplied a.machine.applied caller c) :
    past.Serves l a (effects ++ [x]) := by
  refine { h with effects := ?_ }
  intro caller c hc
  rcases List.mem_append.1 hc with hold | hnew
  · exact h.effects caller c hold
  · exact hx caller c (List.mem_singleton.1 hnew).symm

theorem Serves.taken (h : past.Serves l a effects) :
    past.Serves l { a with answers := [] } [] where
  waiters := h.waiters
  effects _ _ hc := by cases hc
  answers _ _ hc := by cases hc
  follows := h.follows

theorem Serves.await (h : past.Serves l a effects) {w : Waiters}
    (hw : ∀ i x, w.Has i x → past.Awaits i x) :
    past.Serves l { a with waiters := w } effects :=
  { h with waiters := hw }

/-! ## The apply loop -/

/-- A client that waits for an entry in the term of that entry waits for its request. -/
theorem Awaits.request {x : Waiter} (h : past.Awaits e.index x) (hl : past.record.Covers l)
    (he : entryAt l e.index = some e) (hterm : x.term = e.term) :
    ∃ q, past.Asks x.caller q ∧ e.isRequestOf q.client q.sequence = true := by
  obtain ⟨q, e', hq, he', hrequest⟩ := h
  have hledger := entryAt_of_isPrefix (hl _ _ he).2 (by rwa [entryAt_take (Nat.le_refl _)])
  rw [hterm, hledger] at he'
  obtain rfl := Option.some.inj he'
  exact ⟨q, hq, hrequest⟩

theorem payload_of_isRequestOf {client : String} {sequence : Nat}
    (h : e.isRequestOf client sequence = true) :
    ∃ data, e.payload = .command ⟨client, sequence, data⟩ := by
  unfold Entry.isRequestOf at h
  split at h
  · cases h
  · rename_i d hd
    simp only [Bool.and_eq_true, beq_iff_eq] at h
    obtain ⟨rfl, rfl⟩ := h
    exact ⟨d.data, hd⟩

/-- The result of an entry is that of the request it carries. -/
theorem Serves.confirms_of_executed (h : past.Serves l a effects) (hl : Positioned l)
    (hremembers : a.sessions.Each (Stands l a.lastApplied))
    (he : entryAt l (a.lastApplied + 1) = some e) (hindex : e.index = a.lastApplied + 1)
    (hx : a.Executed e (some c) b) (hq : e.isRequestOf q.client q.sequence = true) :
    past.Confirms l e.index b.machine.applied q c := by
  obtain ⟨data, hdata⟩ := payload_of_isRequestOf hq
  cases hx with
  -- the result was remembered, and is borne out as it was then
  | passed _ hold hr =>
    obtain ⟨d, hd, hcheck⟩ := hr c rfl
    rw [hdata] at hd
    obtain rfl := Payload.command.inj hd
    obtain ⟨hstands, hnamed⟩ := h.confirms_of_check hl hremembers hcheck
    exact ⟨hstands.mono (by omega), hnamed⟩
  -- the entry itself was run just now
  | ran d machine output hpayload hnew happly =>
    rw [hdata] at hpayload
    obtain rfl := Payload.command.inj hpayload
    have hself : entryAt l e.index = some e := by
      rw [hindex]
      exact he
    refine ⟨stands_self hself hdata (Nat.le_refl _), fun window hw => ?_⟩
    obtain ⟨rfl, happlied, -⟩ := (h.follows window hw).apply he hdata hnew happly
    constructor
    · show entryAt l e.index = _
      rw [hself]
      cases e
      cases hdata
      rfl
    · show _ ∈ machine.applied
      rw [happlied]
      exact List.mem_append_right _ (List.mem_singleton_self _)

/-- A client that is told a result waited for the entry, in its term. -/
theorem mem_answers_conclude (hx : a.Executed e r b)
    (hc : (caller, ClientResponse.committed c) ∈ (b.conclude e r).answers) :
    (caller, ClientResponse.committed c) ∈ a.answers
      ∨ r = some c ∧ ∃ w, a.waiters.Has e.index w ∧ w.caller = caller ∧ w.term = e.term := by
  rw [hx.answers_conclude] at hc
  rcases List.mem_append.1 hc with hold | hnew
  · exact Or.inl hold
  · obtain ⟨w, hw, heq⟩ := List.mem_map.1 hnew
    obtain ⟨rfl, hanswer⟩ := Prod.mk.inj heq
    unfold Applier.answer at hanswer
    split at hanswer
    · split at hanswer
      · rename_i found hterm
        obtain rfl := ClientResponse.committed.inj hanswer
        exact Or.inr ⟨rfl, w, Waiters.has_of_mem_take hw, rfl, hterm⟩
      · cases hanswer
    · cases hanswer

/-- **One entry.** What the clients are told stays right when the next entry is applied. -/
theorem Serves.conclude (h : past.Serves l a effects) (hl : past.record.Covers l)
    (hremembers : a.sessions.Each (Stands l a.lastApplied))
    (he : entryAt l (a.lastApplied + 1) = some e) (hindex : e.index = a.lastApplied + 1)
    (hx : a.Executed e r b) : past.Serves l (b.conclude e r) effects := by
  have hpositioned : Positioned l := fun i x hx => (hl i x hx).1
  have hlast : a.lastApplied ≤ (b.conclude e r).lastApplied := by
    show a.lastApplied ≤ e.index
    omega
  have hself : entryAt l e.index = some e := by
    rw [hindex]
    exact he
  have hkept : a.machine.applied ⊆ (b.conclude e r).machine.applied := hx.applied_subset
  constructor
  · intro i x hi
    rw [hx.waiters_conclude] at hi
    exact h.waiters i x (Waiters.has_take hi)
  · intro caller c hc
    exact (h.effects caller c hc).later hlast hkept
  · intro caller c hc
    rcases mem_answers_conclude hx hc with hold | ⟨rfl, w, hw, rfl, hterm⟩
    · exact (h.answers caller c hold).later hlast hkept
    · obtain ⟨q, hq, hrequest⟩ := (h.waiters _ _ hw).request hl hself hterm
      have hconfirms := h.confirms_of_executed hpositioned hremembers he hindex hx hrequest
      exact ⟨q, hq, hconfirms⟩
  · intro window hw
    have hfollows := h.follows window hw
    -- the state machine follows the log over the entry, whether it ran or was passed over
    cases hx with
    | passed r hold =>
      show a.machine.Follows window l e.index a.sessions
      rw [hindex]
      exact hfollows.skip he hold
    | ran d machine output hpayload hnew happly =>
      have hnext := (hfollows.apply he hpayload hnew happly).2.2
      rw [← hindex] at hnext
      exact hnext

end Raft.Network.Past
