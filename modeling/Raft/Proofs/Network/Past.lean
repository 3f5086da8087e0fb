import Raft.Proofs.Protocol.Safety
import Raft.Proofs.Network.Basic

/-!
# What a cluster knows

Between two acts every message and every waiting event agrees with what the cluster has done, which
is the record of the protocol behind the nodes, and with who has asked for it.

* `Past` is what messages are judged by; `Past.Holds`, `Past.Knows` and `Past.Vouches` judge
  letters, events and effects.
* `Past.Awaits past i x`: the entry that a client waits for carries its request.
* `Past.Origin past`: every command comes from a client.
* `Past.Bears past client sequence c`: a committed log bears a result out.
-/

namespace Raft

open Protocol (Core Record)

namespace Network

/-- What messages are judged by: the members, whom callers stand for, the windows of session tables,
and what was done. -/
structure Past where
  members : List NodeId
  callers : List Call
  windows : List Nat
  record : Record

namespace Past

/-- The past grows. The members stay. -/
structure Grows (a b : Past) : Prop where
  members : b.members = a.members
  callers : a.callers <+: b.callers
  windows : a.windows ⊆ b.windows
  record : a.record.Grows b.record

/-- What a letter asks is on record. -/
def Holds (past : Past) (l : Letter) : Prop :=
  l.target ∈ past.members ∧ l.target ≠ l.source
    ∧ match l.request with
      | .vote q => q.candidate = l.source ∧ past.record.asked q
      | .append q => past.record.offered q
      | .timeoutNow _ => True

/-- A caller stands for a request that was delivered to a node. -/
def Calls (past : Past) (p : NodeId) (caller : Caller) (q : Request) : Prop :=
  ∃ source, past.callers[caller]? = some (.letter ⟨source, p, q⟩)

/-- A caller is a client with a request. -/
def Asks (past : Past) (caller : Caller) (q : ClientRequest) : Prop :=
  past.callers[caller]? = some (.client q)

/-- All session tables have the same window. -/
def Uniform (past : Past) (window : Nat) : Prop := ∀ w ∈ past.windows, w = window

/-- The entry that a client waits for carries its request. -/
def Awaits (past : Past) (i : Nat) (x : Waiter) : Prop :=
  ∃ q e, past.Asks x.caller q ∧ entryAt (past.record.ledger x.term) i = some e
    ∧ e.isRequestOf q.client q.sequence = true

/-- Every command comes from a client. -/
def Origin (past : Past) : Prop :=
  ∀ t, ∀ e ∈ past.record.ledger t, ∀ c, e.payload = .command c →
    ∃ caller q, past.Asks caller q ∧ q.toCommand = c

/-- A log that is committed up to a result has the request at its place. If all session tables have
the same window, it is what the state machine answers there. -/
def Bears (past : Past) (client : String) (sequence : Nat) (c : CommitResult) : Prop :=
  ∃ u l data, past.record.Settled past.members u l c.index
    ∧ entryAt l c.index = some ⟨c.index, c.term, .command ⟨client, sequence, data⟩⟩
    ∧ ∀ window, past.Uniform window → data = c.result

/-- What an event of a node says is on record. -/
def Knows (past : Past) (p : NodeId) : Event → Prop
  | .voteRequest q caller => past.Calls p caller (.vote q) ∧ past.record.asked q
  | .appendRequest q caller => past.Calls p caller (.append q) ∧ past.record.offered q
  | .propose q _ caller => past.Asks caller q
  | .voteResult peer t (.ok a) =>
    a.granted = true → peer ∈ past.members ∧ past.record.ballot peer t p
  | .appendResult peer request r =>
    peer ∈ past.members ∧ peer ≠ p
      ∧ ∀ a, r = .ok a → a.success = true → a.matchIndex ≤ past.record.held peer request.term
  | _ => True

/-- What an effect of a node says to another one is on record. No leader is told that it contradicts
what was committed. -/
def Vouches (past : Past) (p : NodeId) : Effect → Prop
  | .send target q => past.Holds ⟨p, target, q⟩
  | .answer caller a =>
    match a with
    | .vote (.ok a) => a.granted = true →
      ∃ q, past.Calls p caller (.vote q) ∧ past.record.ballot p q.term q.candidate
    | .append (.ok a) => a.success = true →
      ∃ q, past.Calls p caller (.append q) ∧ a.matchIndex ≤ past.record.held p q.term
    | .append (.error (.replication _)) => False
    | _ => True

variable {a b c : Past} {p : NodeId} {l : Letter} {q : Request} {caller : Caller}

theorem Grows.callers_eq (g : a.Grows b) {x : Call} (h : a.callers[caller]? = some x) :
    b.callers[caller]? = some x := by
  obtain ⟨rest, hrest⟩ := g.callers
  rw [← hrest, List.getElem?_append_left (List.getElem?_eq_some_iff.1 h).1, h]

theorem Holds.mono (g : a.Grows b) (h : a.Holds l) : b.Holds l := by
  obtain ⟨htarget, hne, hrequest⟩ := h
  refine ⟨by rwa [g.members], hne, ?_⟩
  cases hq : l.request with
  | vote q =>
    rw [hq] at hrequest
    exact ⟨hrequest.1, g.record.asked q hrequest.2⟩
  | append q =>
    rw [hq] at hrequest
    exact g.record.offered q hrequest
  | timeoutNow => trivial

theorem Calls.mono (g : a.Grows b) (h : a.Calls p caller q) : b.Calls p caller q := by
  obtain ⟨source, h⟩ := h
  exact ⟨source, g.callers_eq h⟩

theorem Asks.mono {q : ClientRequest} (g : a.Grows b) (h : a.Asks caller q) : b.Asks caller q :=
  g.callers_eq h

theorem Uniform.anti {window : Nat} (g : a.Grows b) (h : b.Uniform window) : a.Uniform window :=
  fun w hw => h w (g.windows hw)

theorem Awaits.mono {i : Nat} {x : Waiter} (g : a.Grows b) (h : a.Awaits i x) : b.Awaits i x := by
  obtain ⟨q, e, hq, he, hrequest⟩ := h
  exact ⟨q, e, hq.mono g, entryAt_of_isPrefix (g.record.ledger x.term) he, hrequest⟩

theorem Bears.mono {client : String} {sequence : Nat} {c : CommitResult} (g : a.Grows b)
    (h : a.Bears client sequence c) : b.Bears client sequence c := by
  obtain ⟨u, l, data, hsettled, he, hdata⟩ := h
  refine ⟨u, l, data, ?_, he, fun window hw => hdata window (hw.anti g)⟩
  rw [g.members]
  exact g.record.settled List.prefix_rfl (Nat.le_refl u) hsettled

theorem Knows.mono {e : Event} (g : a.Grows b) (h : a.Knows p e) : b.Knows p e := by
  cases e with
  | voteRequest q caller => exact ⟨h.1.mono g, g.record.asked q h.2⟩
  | appendRequest q caller => exact ⟨h.1.mono g, g.record.offered q h.2⟩
  | propose q request caller => exact Asks.mono g h
  | voteResult peer t r =>
    cases r with
    | error => trivial
    | ok x =>
      intro hx
      obtain ⟨hpeer, hballot⟩ := h hx
      exact ⟨by rwa [g.members], g.record.ballot _ _ _ hballot⟩
  | appendResult peer request r =>
    obtain ⟨hpeer, hne, hmatch⟩ := h
    exact ⟨by rwa [g.members], hne,
      fun x hx hs => Nat.le_trans (hmatch x hx hs) (g.record.held_le _ _)⟩
  | timeoutNowRequest | transfer | timeoutNowResult => trivial

theorem Vouches.mono {e : Effect} (g : a.Grows b) (h : a.Vouches p e) : b.Vouches p e := by
  cases e with
  | send target q => exact Holds.mono g h
  | answer caller x =>
    cases x with
    | vote x =>
      cases x with
      | error => trivial
      | ok x =>
        intro hx
        obtain ⟨q, hcalls, hballot⟩ := h hx
        exact ⟨q, hcalls.mono g, g.record.ballot _ _ _ hballot⟩
    | append x =>
      cases x with
      | error e => cases e <;> first | exact h.elim | trivial
      | ok x =>
        intro hx
        obtain ⟨q, hcalls, hmatch⟩ := h hx
        exact ⟨q, hcalls.mono g, Nat.le_trans hmatch (g.record.held_le _ _)⟩
    | timeoutNow | client | transfer => trivial

end Past

end Network

end Raft
