import Raft.Proofs.Apply.Applier
import Raft.Proofs.Apply.Registry
import Raft.Proofs.Tenure.Servers

/-!
# Clients that wait, and tenures

A client that waits was let in by a leader, at the place of its command in the log, beyond what is
applied. The leader lets it go when it steps down, and then answers it. The apply loop answers it when
it comes to its place, which still holds the entry of the client's term.

* `Tenure.Kept inbound a`: every client that waits has its entry.
* `Tenure.clients a`: the clients that were answered, and those that wait.
* `Worked.kept`, `Worked.clients`, `Worked.has`: what a work makes of them.
* `Applier.Wakes`: what the apply loop makes of them.
-/

namespace Raft

/-- The clients that effects answer. -/
def clientsOf (es : List Effect) : List Caller :=
  es.filterMap fun
    | .answer c (.client _) => some c
    | _ => none

def Waiters.callers (w : Waiters) : List Caller := w.all.map Waiter.caller

/-- An entry is the one that a client waits for: it is of the term that the client expects, and the
client asked for its command. -/
def Waiter.IsFor (inbound : List Event) (x : Waiter) (e : Entry) : Prop :=
  e.term = x.term
    ∧ ∃ q, .propose q x.request x.caller ∈ inbound ∧ e.isRequestOf q.client q.sequence = true

namespace Tenure

/-- Every client that waits has its entry in the log, beyond what is applied. -/
structure Kept (inbound : List Event) (a : Tenure) : Prop where
  keyed : a.waiters.Keyed
  placed : ∀ i x, a.waiters.Has i x → ∃ k e, a.applied < k ∧ entryAt a.log.entries k = some e
    ∧ e.index = i ∧ x.IsFor inbound e

/-- Clients wait with leaders only. -/
def Hosts (a : Tenure) : Prop := ∀ i x, a.waiters.Has i x → ∃ y, a.seat = .leader y

/-- The clients that were answered, and those that wait. -/
def clients (a : Tenure) : List Caller :=
  clientsOf a.said ++ a.replied.map (·.1) ++ a.waiters.callers

end Tenure

section Lists

variable {es : List Effect} {w : Waiters} {i : Nat} {x : Waiter}

theorem clientsOf_append (es es' : List Effect) :
    clientsOf (es ++ es') = clientsOf es ++ clientsOf es' := List.filterMap_append

theorem callers_eq (w : Waiters) : w.callers = w.items.map fun item => item.2.caller := by
  unfold Waiters.callers
  rw [Waiters.all_eq, List.map_map]
  rfl

theorem callers_register (w : Waiters) (i : Nat) (x : Waiter) :
    (w.register i x).callers.Perm (x.caller :: w.callers) := by
  rw [callers_eq, callers_eq]
  exact (Waiters.items_register w i x).map _

theorem Waiters.Has.register (h : w.Has i x) (j : Nat) (y : Waiter) : (w.register j y).Has i x := by
  rw [Waiters.has_iff_mem_items] at h ⊢
  exact (Waiters.items_register w j y).mem_iff.2 (List.mem_cons_of_mem _ h)

theorem not_has_of_byIndex_nil (h : w.byIndex = []) : ¬ w.Has i x := by
  rintro ⟨ws, hws, -⟩
  rw [h] at hws
  cases hws

theorem clientsOf_redirects (w : Waiters) (leader : Option NodeId) :
    clientsOf (Node.Leader.redirects w leader) = w.takeAll.1.map Waiter.caller := by
  unfold clientsOf Node.Leader.redirects
  rw [List.filterMap_map]
  exact congrFun List.filterMap_eq_map _

theorem clientsOf_transfers (h : ∀ e ∈ es, ∃ caller y, e = .answer caller (.transfer y)) :
    clientsOf es = [] := by
  refine List.filterMap_eq_nil_iff.2 fun e he => ?_
  obtain ⟨caller, y, rfl⟩ := h e he
  rfl

end Lists

section Deeds

variable {src : Option Event} {inbound : List Event} {o a b : Tenure} {i : Nat} {x : Waiter}

/-! ## Every client has its entry -/

theorem Tenure.Hosts.not_has (h : a.Hosts) (hseat : ∀ y, a.seat ≠ .leader y) :
    ¬ a.waiters.Has i x := fun hx => (h i x hx).elim hseat

/-- Nobody waits with a node that does not lead. -/
theorem Tenure.Kept.of_idle (h : a.Kept inbound) (hhosts : a.Hosts)
    (hseat : ∀ y, a.seat ≠ .leader y) (hwaiters : b.waiters = a.waiters) :
    b.Kept inbound ∧ b.Hosts := by
  have hnobody : ∀ i x, ¬ b.waiters.Has i x := by
    rw [hwaiters]
    exact fun i x => hhosts.not_has hseat
  exact ⟨⟨hwaiters ▸ h.keyed, fun i x hx => absurd hx (hnobody i x)⟩,
    fun i x hx => absurd hx (hnobody i x)⟩

theorem Tenure.Kept.grow (h : a.Kept inbound) (hwaiters : b.waiters = a.waiters)
    (happlied : b.applied = a.applied) (hlog : a.log.entries <+: b.log.entries) :
    b.Kept inbound := by
  refine ⟨hwaiters ▸ h.keyed, fun i x hx => ?_⟩
  rw [hwaiters] at hx
  obtain ⟨k, e, hk, he, hrest⟩ := h.placed i x hx
  exact ⟨k, e, happlied ▸ hk, entryAt_of_isPrefix hlog he, hrest⟩

theorem Tenure.Kept.of_prefix (h : a.Kept inbound) (hhosts : a.Hosts)
    (hwaiters : b.waiters = a.waiters) (happlied : b.applied = a.applied)
    (hlog : a.log.entries <+: b.log.entries)
    (hseat : (∃ y, a.seat = .leader y) → ∃ y, b.seat = .leader y) : b.Kept inbound ∧ b.Hosts :=
  ⟨h.grow hwaiters happlied hlog, fun i x hx => hseat (hhosts i x (hwaiters ▸ hx))⟩

theorem Tenure.Kept.mono {later : List Event} (h : a.Kept inbound) (hsub : inbound ⊆ later) :
    a.Kept later where
  keyed := h.keyed
  placed i x hx := by
    obtain ⟨k, e, hk, he, hindex, hterm, q, hq, hrequest⟩ := h.placed i x hx
    exact ⟨k, e, hk, he, hindex, hterm, q, hsub hq, hrequest⟩

/-- Where entries stand at their indexes, each client has its entry there. -/
theorem Tenure.Kept.entry (h : a.Kept inbound) (hl : Positioned a.log.entries)
    (hx : a.waiters.Has i x) :
    a.applied < i ∧ ∃ e, entryAt a.log.entries i = some e ∧ x.IsFor inbound e := by
  obtain ⟨k, e, hk, he, hindex, hfor⟩ := h.placed i x hx
  obtain rfl : k = i := (hl k e he).symm.trans hindex
  exact ⟨hk, e, he, hfor⟩

theorem Deed.kept (h : Deed src o a b) (ha : a.Kept inbound) (hhosts : a.Hosts)
    (happlied : a.applied ≤ o.log.entries.length)
    (hsrc : ∀ q request c, src = some (.propose q request c) → .propose q request c ∈ inbound) :
    b.Kept inbound ∧ b.Hosts := by
  have hsame : b.waiters = a.waiters → b.applied = a.applied → b.log = a.log → b.seat = a.seat →
      b.Kept inbound ∧ b.Hosts := fun hw hi hl hs =>
    ha.of_prefix hhosts hw hi (hl ▸ List.prefix_refl _) (hs ▸ id)
  have hother : ∀ y : Seat, a.seat = y → (∀ x, y ≠ .leader x) → ∀ x, a.seat ≠ .leader x := by
    rintro y rfl hy
    exact hy
  cases h with
  | say | follow | summon | elect | commit | yield | postpone => exact hsame rfl rfl rfl rfl
  -- only a leader lets anybody wait
  | merge _ _ hseat => exact ha.of_idle hhosts (hother _ hseat nofun) rfl
  | stand _ _ _ hseat => exact ha.of_idle hhosts hseat rfl
  | count _ _ _ hseat => exact ha.of_idle hhosts (hother _ hseat nofun) rfl
  | lead _ _ _ _ hseat => exact ha.of_idle hhosts (hother _ hseat nofun) rfl
  | append q request caller x l _ _ _ hl =>
    refine ha.of_prefix hhosts rfl rfl ?_ id
    show a.log.entries <+: l.entries
    rw [hl]
    exact List.prefix_append _ _
  | send | tally | retreat => exact ha.of_prefix hhosts rfl rfl (List.prefix_refl _) fun _ => ⟨_, rfl⟩
  | register q request caller e x hsource _ hseat hplace hrequest =>
    refine ⟨⟨ha.keyed.register _ _, fun i y hy => ?_⟩, fun i y _ => ⟨x, hseat⟩⟩
    rcases Waiters.has_register hy with hold | ⟨rfl, rfl⟩
    · exact ha.placed i y hold
    · have hfor : Waiter.IsFor inbound ⟨request, e.term, caller⟩ e :=
        ⟨rfl, q, hsrc _ _ _ hsource, hrequest⟩
      -- the entry was not applied yet, or was just written behind the log
      rcases hplace with hdrop | hlast
      · obtain ⟨k, hk⟩ := List.getElem?_of_mem hdrop
        rw [List.getElem?_drop] at hk
        have hlt : a.applied < a.applied + k + 1 := by omega
        exact ⟨a.applied + k + 1, e, hlt, by rwa [entryAt_succ], rfl, hfor⟩
      · refine ⟨o.log.entries.length + 1, e, Nat.lt_succ_of_le happlied, ?_, rfl, hfor⟩
        show entryAt a.log.entries _ = _
        rw [hlast]
        exact entryAt_append_last

theorem Reached.kept (h : Reached src o a) (ho : o.Kept inbound) (hhosts : o.Hosts)
    (happlied : o.applied ≤ o.log.entries.length)
    (hsrc : ∀ q request c, src = some (.propose q request c) → .propose q request c ∈ inbound) :
    a.Kept inbound ∧ a.Hosts := by
  refine h.induct (P := fun x => x.Kept inbound ∧ x.Hosts) ?_ ⟨ho, hhosts⟩
  rintro x y hx ⟨hkept, hx'⟩ hdeed
  exact hdeed.kept hkept hx' (hx.standsBy.applied ▸ happlied) hsrc

theorem Tenure.Kept.receive (h : a.Kept inbound) (hhosts : a.Hosts) (src : Option Event) :
    (a.receive src).Kept inbound ∧ (a.receive src).Hosts := by
  unfold Tenure.receive
  split
  · split
    · exact h.of_prefix hhosts rfl rfl (List.prefix_refl _) fun _ => ⟨_, rfl⟩
    · exact ⟨h, hhosts⟩
  · exact ⟨h, hhosts⟩

/-- A work keeps the entries of those that wait. -/
theorem Worked.kept (h : Worked src a b) (ha : a.Kept inbound) (hhosts : a.Hosts)
    (happlied : a.applied ≤ a.log.entries.length)
    (hsrc : ∀ q request c, src = some (.propose q request c) → .propose q request c ∈ inbound) :
    b.Kept inbound ∧ b.Hosts := by
  cases h with
  | told => exact ha.of_prefix hhosts rfl rfl (List.prefix_refl _) id
  | retired l rest others hqueue hothers =>
    cases hseat : a.seat with
    | follower | candidate =>
      have hidle : ∀ y, a.seat ≠ .leader y := by
        rw [hseat]
        exact nofun
      rw [Tenure.retire_of_ne hidle]
      exact ha.of_idle hhosts hidle rfl
    | leader x =>
      rw [Tenure.retire_of_leader hseat]
      obtain ⟨-, hnone⟩ := ha.keyed.takeAll
      refine ⟨⟨?_, fun i y hy => absurd hy (not_has_of_byIndex_nil hnone)⟩,
        fun i y hy => absurd hy (not_has_of_byIndex_nil hnone)⟩
      show (a.waiters.takeAll.2.byIndex.map _).Nodup
      rw [hnone]
      exact List.nodup_nil
  | handled _ _ h =>
    have hpop : ({ a with queue := [] } : Tenure).Kept inbound := ⟨ha.keyed, ha.placed⟩
    have hpop' : ({ a with queue := [] } : Tenure).Hosts := hhosts
    obtain ⟨y, hy⟩ := Tenure.exists_receive_eq { a with queue := [] } src
    have hreceived := hpop.receive hpop' src
    rw [hy] at h hreceived
    exact h.kept hreceived.1 hreceived.2 happlied hsrc

theorem Tenure.Hosts.of_fewer (h : a.Hosts) (hseat : b.seat = a.seat)
    (hfewer : ∀ i x, b.waiters.Has i x → a.waiters.Has i x) : b.Hosts := by
  intro i x hx
  rw [hseat]
  exact h i x (hfewer i x hx)

/-- A client that no longer waits leaves the others their entries. -/
theorem Tenure.Kept.withdraw (h : a.Kept inbound) (request : String) :
    Tenure.Kept inbound { a with waiters := (a.waiters.cancel request).2 } where
  keyed := (h.keyed.cancel request).1
  placed i x hx := h.placed i x (Waiters.has_cancel hx)

/-! ## Nobody is lost -/

/-- The clients that were answered and those that wait are the same, but for the one whose command is
handled. -/
def SameClients (src : Option Event) (a b : Tenure) : Prop :=
  b.clients.Perm a.clients
    ∨ ∃ q request c, src = some (.propose q request c) ∧ b.clients.Perm (c :: a.clients)

theorem Tenure.clients_congr (hsaid : clientsOf b.said = clientsOf a.said)
    (hreplied : b.replied = a.replied) (hwaiters : b.waiters = a.waiters) :
    b.clients = a.clients := by
  unfold clients
  rw [hsaid, hreplied, hwaiters]

theorem Deed.clients (h : Deed src o a b) (hreplied : a.replied = o.replied)
    (ha : SameClients src o a) : SameClients src o b := by
  have hsame : b.clients = a.clients → SameClients src o b := by
    intro heq
    unfold SameClients
    rw [heq]
    exact ha
  cases h with
  -- an answer to a client is the only thing said that counts
  | say e hsays =>
    have hsilent : clientsOf [e] = [] → SameClients src o { a with said := a.said ++ [e] } := by
      intro he
      refine hsame (Tenure.clients_congr ?_ rfl rfl)
      rw [clientsOf_append, he, List.append_nil]
    cases e with
    | send => exact hsilent rfl
    | answer c y =>
      cases y with
      | vote | append | timeoutNow | transfer => exact hsilent rfl
      | client y =>
        obtain ⟨⟨q, request, hsource⟩, hsaid, hwaiters⟩ := hsays
        refine Or.inr ⟨q, request, c, hsource, ?_⟩
        have heq : ({ a with said := a.said ++ [.answer c (.client y)] } : Tenure).clients
            = clientsOf o.said ++ [c] ++ (o.replied.map (·.1) ++ o.waiters.callers) := by
          unfold Tenure.clients
          rw [hsaid, hwaiters, hreplied, clientsOf_append, List.append_assoc]
          rfl
        rw [heq]
        unfold Tenure.clients
        rw [List.append_assoc, List.append_assoc]
        exact List.perm_middle
  | register q request caller e x hsource _ _ _ _ hsaid hwaiters =>
    refine Or.inr ⟨q, request, caller, hsource, ?_⟩
    unfold Tenure.clients
    dsimp only
    rw [hsaid, hwaiters, hreplied]
    exact ((callers_register _ _ _).append_left _).trans List.perm_middle
  | send peer r =>
    refine hsame (Tenure.clients_congr ?_ rfl rfl)
    rw [clientsOf_append]
    exact List.append_nil _
  | _ => exact hsame rfl

theorem Reached.clients (h : Reached src o a) : SameClients src o a :=
  h.induct (P := SameClients src o)
    (fun _ _ hx ha hdeed => hdeed.clients hx.standsBy.replied ha) (Or.inl (List.Perm.refl _))

/-- A work answers those that it lets go. -/
theorem Worked.clients (h : Worked src a b) (ha : a.waiters.Keyed) : SameClients src a b := by
  cases h with
  | told => exact Or.inl (List.Perm.refl _)
  | retired l rest others hqueue hothers =>
    left
    cases hseat : a.seat with
    | follower | candidate =>
      rw [Tenure.retire_of_ne (by rw [hseat]; exact nofun)]
      exact List.Perm.refl _
    | leader x =>
      rw [Tenure.retire_of_leader hseat]
      obtain ⟨hall, hnone⟩ := ha.takeAll
      have hwaiting : a.waiters.takeAll.2.callers = [] := by
        unfold Waiters.callers Waiters.all
        rw [hnone]
        rfl
      unfold Tenure.clients
      dsimp only
      rw [hwaiting, List.append_nil, clientsOf_append, clientsOf_append, clientsOf_redirects,
        clientsOf_transfers hothers, List.append_nil, List.append_assoc, List.append_assoc]
      refine List.Perm.append_left _ ?_
      exact List.perm_append_comm.trans ((hall.map _).symm.append_left _)
  | handled _ _ h =>
    obtain ⟨y, hy⟩ := Tenure.exists_receive_eq { a with queue := [] } src
    rw [hy] at h
    exact h.clients

/-! ## Whoever leaves is answered -/

theorem Deed.has (h : Deed src o a b) (hx : a.waiters.Has i x) : b.waiters.Has i x := by
  cases h with
  | register => exact hx.register _ _
  | _ => exact hx

theorem Reached.has (h : Reached src o a) (hx : o.waiters.Has i x) : a.waiters.Has i x :=
  h.induct (P := fun y => y.waiters.Has i x) (fun _ _ _ hy hdeed => hdeed.has hy) hx

/-- Whoever no longer waits after a work was sent to the next leader by one that stepped down. -/
theorem Worked.has (h : Worked src a b) (ha : a.waiters.Keyed) (hx : a.waiters.Has i x) :
    b.waiters.Has i x ∨ ∃ l rest, a.queue = .becomeFollower l :: rest
      ∧ .answer x.caller (.client (.notLeader l)) ∈ b.said := by
  cases h with
  | told => exact Or.inl hx
  | retired l rest others hqueue hothers =>
    cases hseat : a.seat with
    | follower | candidate =>
      rw [Tenure.retire_of_ne (by rw [hseat]; exact nofun)]
      exact Or.inl hx
    | leader y =>
      rw [Tenure.retire_of_leader hseat]
      refine Or.inr ⟨l, rest, hqueue, ?_⟩
      have hmem : x ∈ a.waiters.takeAll.1 := by
        rw [← ha.takeAll.1.mem_iff, Waiters.all_eq]
        exact List.mem_map_of_mem (Waiters.has_iff_mem_items.1 hx)
      refine List.mem_append_left _ (List.mem_append_right _ ?_)
      exact List.mem_map_of_mem hmem
  | handled _ _ h =>
    obtain ⟨y, hy⟩ := Tenure.exists_receive_eq { a with queue := [] } src
    rw [hy] at h
    exact Or.inl (h.has hx)

end Deeds

/-! ## The apply loop -/

namespace Applier

variable {log : Log} {a b m : Applier} {e : Entry} {r : Option CommitResult}

/-- On the way from `a` to `b` the apply loop answered those to whose place it came, each with the
result of an entry of the term that it expects. -/
structure Wakes (a b : Applier) : Prop where
  keyed : b.waiters.Keyed
  stays : ∀ i x, b.waiters.Has i x → a.waiters.Has i x ∧ b.lastApplied < i
  callers : (b.answers.map (·.1) ++ b.waiters.callers).Perm
    (a.answers.map (·.1) ++ a.waiters.callers)
  woken : ∀ i x, a.waiters.Has i x → b.waiters.Has i x
    ∨ i ≤ b.lastApplied ∧ ∃ r, (x.caller, answer r x.term x) ∈ b.answers

/-- Whoever waits does so for an entry to come, of the term that it expects. -/
def Expects (log : Log) (a : Applier) : Prop :=
  ∀ i x, a.waiters.Has i x →
    a.lastApplied < i ∧ ∃ e, entryAt log.entries i = some e ∧ e.term = x.term

theorem Wakes.refl (hkeyed : a.waiters.Keyed) (ha : a.Expects log) : a.Wakes a where
  keyed := hkeyed
  stays i x hx := ⟨hx, (ha i x hx).1⟩
  callers := List.Perm.refl _
  woken _ _ hx := Or.inl hx

/-- Who waits after an entry is concluded waited before, on another entry. -/
theorem Executed.has_conclude {i : Nat} {x : Waiter} (hx : m.Executed e r b) :
    (b.conclude e r).waiters.Has i x ↔ m.waiters.Has i x ∧ i ≠ e.index := by
  rw [hx.waiters_conclude, Waiters.has_iff_mem_items, Waiters.items_take, List.mem_filter,
    ← Waiters.has_iff_mem_items]
  simp

/-- Who waits on an entry is told its result when it is concluded. -/
theorem Executed.answered {x : Waiter} (hkeyed : m.waiters.Keyed)
    (hwaits : m.waiters.Has e.index x) (hterm : e.term = x.term) (hx : m.Executed e r b) :
    (x.caller, answer r x.term x) ∈ (b.conclude e r).answers := by
  rw [hx.answers_conclude, ← hterm]
  refine List.mem_append_right _ (List.mem_map.2 ⟨x, ?_, rfl⟩)
  have hmem : (e.index, x) ∈ m.waiters.items.filter (·.1 = e.index) :=
    List.mem_filter.2 ⟨Waiters.has_iff_mem_items.1 hwaits, by simp⟩
  rw [hkeyed.filter_eq] at hmem
  obtain ⟨y, hy, heq⟩ := List.mem_map.1 hmem
  exact (Prod.mk.inj heq).2 ▸ hy

theorem Wakes.conclude (h : a.Wakes m) (ha : a.Expects log)
    (he : entryAt log.entries (m.lastApplied + 1) = some e) (hindex : e.index = m.lastApplied + 1)
    (hx : m.Executed e r b) : a.Wakes (b.conclude e r) := by
  constructor
  · rw [hx.waiters_conclude]
    exact h.keyed.take e.index
  · intro i x hi
    obtain ⟨hold, hne⟩ := hx.has_conclude.1 hi
    obtain ⟨hwaits, hlt⟩ := h.stays i x hold
    refine ⟨hwaits, ?_⟩
    show e.index < i
    omega
  · rw [hx.answers_conclude, hx.waiters_conclude]
    refine List.Perm.trans ?_ h.callers
    have hitems := (h.keyed.perm_take e.index).map fun item => item.2.caller
    rw [List.map_append, List.map_map, ← callers_eq, ← callers_eq] at hitems
    rw [List.map_append, List.map_map, List.append_assoc]
    exact hitems.symm.append_left _
  · intro i x hi
    rcases h.woken i x hi with hold | ⟨hle, r', hr⟩
    · by_cases hne : i = e.index
      · subst hne
        obtain ⟨-, e', he', hterm⟩ := ha _ x hi
        rw [hindex, he] at he'
        obtain rfl := Option.some.inj he'
        exact Or.inr ⟨Nat.le_refl _, r, hx.answered h.keyed hold hterm⟩
      · exact Or.inl (hx.has_conclude.2 ⟨hold, hne⟩)
    · refine Or.inr ⟨?_, r', ?_⟩
      · show i ≤ e.index
        omega
      · rw [hx.answers_conclude]
        exact List.mem_append_left _ hr

theorem Executed.last_le (h : a.Executed e r b) (hle : a.machine.last ≤ e.index) :
    b.machine.last ≤ e.index := by
  cases h with
  | passed => exact hle
  | ran c machine output _ _ happly =>
    exact Nat.le_of_eq (congrArg Machine.last (Machine.eq_of_apply_eq_ok happly).1)

/-- The state machine does not run ahead of the loop. -/
theorem last_round (c : ApplySchedule) (hl : Positioned log.entries)
    (ha : a.machine.last ≤ a.lastApplied) :
    (c.round log a).2.machine.last ≤ (c.round log a).2.lastApplied :=
  ApplySchedule.round_keeps hl (I := fun m => m.machine.last ≤ m.lastApplied)
    (fun _ _ _ _ hm _ hindex _ hx => hx.last_le (hindex ▸ Nat.le_succ_of_le hm)) ha

/-- A round of the apply loop. -/
theorem wakes_round (c : ApplySchedule) (hl : Positioned log.entries) (hkeyed : a.waiters.Keyed)
    (ha : a.Expects log) : a.Wakes (c.round log a).2 :=
  ApplySchedule.round_keeps hl (I := fun m => a.Wakes m)
    (fun _ _ _ _ hm he hindex _ hx => hm.conclude ha he hindex hx) (Wakes.refl hkeyed ha)

end Applier

/-! ## Servers -/

namespace Server

variable {Source : Option Event → Prop} {Named : String → Prop} {inbound : List Event}
  {s t : Server} {i : Nat} {x : Waiter}

theorem expects_of_kept (h : s.node.tenure.Kept inbound) (hl : Positioned s.node.log.entries)
    {a : Applier} (ha : a = s.node.applier ∨ ∃ i ∈ s.node.signals, a = s.node.applier.signal i) :
    a.waiters = s.node.applier.waiters ∧ a.answers = s.node.applier.answers
      ∧ a.Expects s.node.log := by
  have hexpects : s.node.applier.Expects s.node.log := by
    intro i x hx
    obtain ⟨hlt, e, he, hterm, -⟩ := h.entry hl hx
    exact ⟨hlt, e, he, hterm⟩
  rcases ha with rfl | ⟨i, -, rfl⟩
  · exact ⟨rfl, rfl, hexpects⟩
  · exact ⟨rfl, rfl, hexpects⟩

theorem wakes_of_applies (h : s.node.tenure.Kept inbound) (hl : Positioned s.node.log.entries)
    {a : Applier} (ha : a = s.node.applier ∨ ∃ i ∈ s.node.signals, a = s.node.applier.signal i)
    (ht : t.node.applier = (s.schedule.round s.node.log a).2) : a.Wakes t.node.applier := by
  obtain ⟨hwaiters, -, hexpects⟩ := expects_of_kept h hl ha
  rw [ht]
  refine Applier.wakes_round s.schedule hl ?_ hexpects
  rw [hwaiters]
  exact h.keyed

/-- The apply loop lets go of those up to where it comes; the others wait further on. -/
theorem kept_of_applies (h : s.node.tenure.Kept inbound) (hl : Positioned s.node.log.entries)
    {a : Applier} (ha : a = s.node.applier ∨ ∃ i ∈ s.node.signals, a = s.node.applier.signal i)
    (ht : t.node.applier = (s.schedule.round s.node.log a).2) (hlog : t.node.log = s.node.log) :
    t.node.tenure.Kept inbound
      ∧ ∀ i x, t.node.tenure.waiters.Has i x → s.node.tenure.waiters.Has i x := by
  have hwakes := wakes_of_applies h hl ha ht
  obtain ⟨hwaiters, -, -⟩ := expects_of_kept h hl ha
  have hstays : ∀ i x, t.node.applier.waiters.Has i x →
      s.node.applier.waiters.Has i x ∧ t.node.applier.lastApplied < i := by
    intro i x hx
    rw [← hwaiters]
    exact hwakes.stays i x hx
  refine ⟨⟨hwakes.keyed, fun i x hx => ?_⟩, fun i x hx => (hstays i x hx).1⟩
  obtain ⟨hold, hlt⟩ := hstays i x hx
  obtain ⟨-, e, he, hfor⟩ := h.entry hl hold
  refine ⟨i, e, hlt, ?_, hl i e he, hfor⟩
  show entryAt t.node.log.entries i = some e
  rw [hlog]
  exact he

/-- A step keeps the entries of those that wait. -/
theorem Does.kept (h : s.Does Source Named t) (hl : Positioned s.node.log.entries)
    (happlied : s.node.applier.lastApplied ≤ s.node.log.lastIndex)
    (hkept : s.node.tenure.Kept inbound) (hhosts : s.isRunning = true → s.node.tenure.Hosts)
    (hsource : s.isRunning = true → ∀ q request c, Source (some (.propose q request c)) →
      .propose q request c ∈ inbound) :
    t.node.tenure.Kept inbound ∧ (t.isRunning = true → t.node.tenure.Hosts) := by
  cases h with
  | rests hended h =>
    obtain ⟨log, hlog, h⟩ := h
    refine ⟨?_, fun hrun => ?_⟩
    · refine hkept.grow (by rw [h]) (by rw [h]) ?_
      rw [h]
      exact hlog.symm ▸ List.prefix_refl _
    · rw [h]
      exact hhosts (isRunning_of_ended hended ▸ hrun)
  | works src hrun hsrc h =>
    have hpropose : ∀ q request c, src = some (.propose q request c) →
        .propose q request c ∈ inbound := by
      rintro q request c rfl
      exact hsource hrun q request c hsrc
    cases h with
    | goes _ h =>
      obtain ⟨hk, hh⟩ := h.kept hkept (hhosts hrun) happlied hpropose
      exact ⟨hk, fun _ => hh⟩
    | ends m hended h hspares =>
      obtain ⟨hk, -⟩ := h.kept hkept (hhosts hrun) happlied hpropose
      refine ⟨hk.grow hspares.waiters hspares.applied (hspares.log ▸ List.prefix_refl _), ?_⟩
      exact fun hrun => absurd hrun (not_isRunning hended)
  | applies a hended ha ht hrest =>
    obtain ⟨hk, hfewer⟩ := kept_of_applies hkept hl ha ht (congrArg Tenure.log hrest)
    have hseat : t.node.tenure.seat = s.node.tenure.seat := by rw [hrest]
    refine ⟨hk, fun hrun => ?_⟩
    exact (hhosts (isRunning_of_ended hended ▸ hrun)).of_fewer hseat hfewer
  | withdraws request _ hended h =>
    rw [h]
    refine ⟨hkept.withdraw request, fun hrun => ?_⟩
    exact (hhosts (isRunning_of_ended hended ▸ hrun)).of_fewer rfl fun _ _ => Waiters.has_cancel

/-- The state machine of a server does not run ahead of its apply loop. -/
theorem Does.done_le (h : s.Does Source Named t) (hl : Positioned s.node.log.entries)
    (hs : s.node.tenure.done ≤ s.node.tenure.applied) :
    t.node.tenure.done ≤ t.node.tenure.applied := by
  cases h with
  | rests _ h =>
    obtain ⟨log, -, h⟩ := h
    rw [h]
    exact hs
  | works src hrun hsrc h =>
    have hworked : ∀ m : Tenure, Worked src s.node.tenure m → m.done ≤ m.applied := by
      intro m hm
      rw [hm.standsBy.done, hm.standsBy.applied]
      exact hs
    cases h with
    | goes _ h => exact hworked _ h
    | ends m _ h hspares =>
      rw [hspares.done, hspares.applied]
      exact hworked m h
  | applies a _ ha ht =>
    show t.node.applier.machine.last ≤ t.node.applier.lastApplied
    rw [ht]
    refine Applier.last_round s.schedule hl ?_
    rcases ha with rfl | ⟨i, -, rfl⟩ <;> exact hs
  | withdraws _ _ _ h =>
    rw [h]
    exact hs

/-- How a client can leave in a step: the apply loop came to its index, it was sent to the next leader
by one that stepped down, or its request was withdrawn. -/
inductive Leaves (Named : String → Prop) (s t : Server) (i : Nat) (x : Waiter) : Prop
  | applied (e : Entry) (r : Option CommitResult) (he : s.node.log.get? i = some e)
      (hterm : e.term = x.term) (hreached : i ≤ t.node.applier.lastApplied)
      (htold : (x.caller, Applier.answer r e.term x) ∈ t.node.applier.answers)
  | sentOn (l : Option NodeId) (rest : List RoleEvent)
      (hqueue : s.node.queue = .becomeFollower l :: rest)
      (htold : .answer x.caller (.client (.notLeader l)) ∈ t.takeEffects.1)
  | withdrawn (h : Named x.request)

/-- Whoever waits goes on to wait in a step, or leaves in one of three ways. -/
theorem Does.has (h : s.Does Source Named t) (hl : Positioned s.node.log.entries)
    (hkept : s.node.tenure.Kept inbound) (hx : s.node.applier.waiters.Has i x) :
    t.node.applier.waiters.Has i x ∨ s.Leaves Named t i x := by
  have hsame : t.node.tenure.waiters = s.node.tenure.waiters → t.node.applier.waiters.Has i x := by
    intro hw
    have hw : t.node.applier.waiters = s.node.applier.waiters := hw
    rwa [hw]
  cases h with
  | rests hended h =>
    obtain ⟨log, -, h⟩ := h
    exact Or.inl (hsame (by rw [h]))
  | works src hrun hsrc h =>
    -- a work lets go of a client only by sending it on
    have hsent : ∀ m : Tenure, Worked src s.node.tenure m → t.node.tenure.waiters = m.waiters →
        t.node.tenure.said = m.said →
        t.node.applier.waiters.Has i x ∨ s.Leaves Named t i x := by
      intro m hworked hwaiters hsaid
      rcases hworked.has hkept.keyed hx with hstays | ⟨l, rest, hqueue, htold⟩
      · exact Or.inl (hwaiters.symm ▸ hstays : t.node.tenure.waiters.Has i x)
      · rw [← hsaid] at htold
        exact Or.inr (.sentOn l rest hqueue (List.mem_append_left _ htold))
    cases h with
    | goes _ h => exact hsent _ h rfl rfl
    | ends m _ h hspares => exact hsent m h hspares.waiters hspares.said
  | applies a hended ha ht hrest =>
    obtain ⟨hwaiters, -, -⟩ := expects_of_kept hkept hl ha
    rcases (wakes_of_applies hkept hl ha ht).woken i x (hwaiters ▸ hx) with hstays | ⟨hle, r, hr⟩
    · exact Or.inl hstays
    · obtain ⟨-, e, he, hterm, -⟩ := hkept.entry hl hx
      exact Or.inr (.applied e r he hterm hle (hterm ▸ hr))
  | withdraws request hnamed hended h =>
    have hw : t.node.applier.waiters = (s.node.applier.waiters.cancel request).2 :=
      congrArg Tenure.waiters h
    rcases (hkept.keyed.cancel request).2 with ⟨-, hitems⟩ | ⟨j, y, -, hrequest, hperm⟩
    · left
      rw [Waiters.has_iff_mem_items] at hx ⊢
      rw [hw]
      exact hitems.symm ▸ hx
    · rw [Waiters.has_iff_mem_items] at hx ⊢
      rcases List.mem_cons.1 (hperm.mem_iff.1 hx) with heq | hmem
      · obtain ⟨-, rfl⟩ := Prod.mk.inj heq
        exact Or.inr (.withdrawn (hrequest ▸ hnamed))
      · exact Or.inl (hw ▸ hmem)

/-- Unless somebody is withdrawn, the clients that were answered and those that wait are the same
after a step, but for one whose command is handled. -/
theorem Does.clients (h : s.Does Source Named t) (hl : Positioned s.node.log.entries)
    (hkept : s.node.tenure.Kept inbound) (hnamed : ∀ request, ¬ Named request) :
    t.node.tenure.clients.Perm s.node.tenure.clients
      ∨ s.isRunning = true ∧ ∃ q request c, Source (some (.propose q request c))
        ∧ t.node.tenure.clients.Perm (c :: s.node.tenure.clients) := by
  cases h with
  | rests hended h =>
    obtain ⟨log, -, h⟩ := h
    rw [h]
    exact Or.inl (List.Perm.refl _)
  | works src hrun hsrc h =>
    have hworked : ∀ m : Tenure, Worked src s.node.tenure m →
        t.node.tenure.clients = m.clients → t.node.tenure.clients.Perm s.node.tenure.clients
          ∨ s.isRunning = true ∧ ∃ q request c, Source (some (.propose q request c))
            ∧ t.node.tenure.clients.Perm (c :: s.node.tenure.clients) := by
      intro m hm heq
      rw [heq]
      refine (hm.clients hkept.keyed).imp id ?_
      rintro ⟨q, request, c, rfl, hperm⟩
      exact ⟨hrun, q, request, c, hsrc, hperm⟩
    cases h with
    | goes _ h => exact hworked _ h rfl
    | ends m _ h hspares =>
      refine hworked m h (Tenure.clients_congr ?_ hspares.replied hspares.waiters)
      rw [hspares.said]
  | applies a hended ha ht hrest =>
    obtain ⟨hwaiters, hanswers, -⟩ := expects_of_kept hkept hl ha
    -- the loop answers those that it lets go of
    have hcallers := (wakes_of_applies hkept hl ha ht).callers
    rw [hwaiters, hanswers] at hcallers
    left
    rw [hrest]
    unfold Tenure.clients
    rw [List.append_assoc, List.append_assoc]
    exact hcallers.append_left _
  | withdraws request h => exact absurd h (hnamed request)

end Server

end Raft
