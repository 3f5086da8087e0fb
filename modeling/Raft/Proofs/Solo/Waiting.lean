import Raft.Proofs.Solo.Committed
import Raft.Proofs.Solo.Reign
import Raft.Proofs.Solo.Tenures
import Raft.Proofs.Solo.Turns
import Raft.Proofs.Tenure.Waiting

/-!
# No client that waits is lost

A node by itself, to which anything can come in but append requests whose entries are not in order.
A client waits with a leader only, beyond what is applied, for an entry of the term that it expects
and with its own command. It leaves when the apply loop comes to its index, when the leader steps
down, or when its request is withdrawn, and it is counted once for that.

* `Solo.releasedBy n acts`: the clients that were answered or withdrawn in some acts.
* `Solo.Attends n`: the entries of those that wait are there.
* `Solo.no_waiter_lost` is the result.
-/

namespace Raft.Solo

variable {n : Solo} {a : Act} {s : Server} {i : Nat} {x : Waiter}

/-! ## Answered and withdrawn -/

/-- The clients that an act answers. -/
def told (n : Solo) (a : Act) : List Caller :=
  match n.site with
  | .up s => clientsOf (n.served a s).takeEffects.1
  | .down _ => []

def withdrawn (n : Solo) (a : Act) : List Caller :=
  match n.site, a with
  | .up s, .withdraw request => (s.node.applier.waiters.cancel request).1.toList.map Waiter.caller
  | _, _ => []

def released (n : Solo) (a : Act) : List Caller := n.told a ++ n.withdrawn a

/-- The clients that were answered or withdrawn in some acts. -/
def releasedBy (n : Solo) : List Act → List Caller
  | [] => []
  | a :: acts => n.released a ++ (n.step a).releasedBy acts

def waiting (n : Solo) : List Caller :=
  match n.site with
  | .up s => s.node.applier.waiters.callers
  | .down _ => []

theorem waiting_of_up (hs : n.site = .up s) : n.waiting = s.node.applier.waiters.callers := by
  unfold waiting
  rw [hs]

theorem waiting_of_down {r : Node.Remains} (hr : n.site = .down r) : n.waiting = [] := by
  unfold waiting
  rw [hr]

theorem told_of_up (hs : n.site = .up s) : n.told a = clientsOf (n.served a s).takeEffects.1 := by
  unfold told
  rw [hs]

/-- A client waits on an index. -/
def WaitsOn (n : Solo) (i : Nat) (x : Waiter) : Prop :=
  ∃ s, n.site = .up s ∧ s.node.applier.waiters.Has i x

theorem releasedBy_append (n : Solo) (acts later : List Act) :
    n.releasedBy (acts ++ later) = n.releasedBy acts ++ (n.steps acts).releasedBy later := by
  induction acts generalizing n with
  | nil => rfl
  | cons a acts ih =>
    show n.released a ++ (n.step a).releasedBy (acts ++ later) = _
    rw [ih, ← List.append_assoc]
    rfl

/-! ## Between two acts -/

/-- What holds between two acts: nothing is amiss with the node, and those that wait have their
entries. -/
structure Attends (n : Solo) : Prop where
  sound : n.Sound
  fits : n.Fits
  firm : n.Firm
  steady : n.Steady
  kept : ∀ s, n.site = .up s → s.node.tenure.Kept n.inbound
  hosts : ∀ s, n.site = .up s → s.isRunning = true → s.node.tenure.Hosts
  done : ∀ s, n.site = .up s → s.node.tenure.done ≤ s.node.tenure.applied

/-- A command that a node takes up has just come in. -/
theorem Attends.source (h : n.Attends) (hs : n.site = .up s) {q : ClientRequest} {request : String}
    {c : Caller} (hrun : s.isRunning = true) (hsrc : n.Brings a s (some (.propose q request c))) :
    (n.step a).inbound = n.inbound ++ [.propose q request c] ∧ c = n.inbound.length := by
  rcases hsrc with ⟨e, rfl, he, -⟩ | ⟨e, he, hsource⟩ | hnone
  · have he := Option.some.inj he
    rw [inbound_step, incoming, ← he]
    refine ⟨rfl, ?_⟩
    cases e <;> cases he
    rfl
  · cases e with
    | replay y =>
      obtain rfl := Option.some.inj hsource
      exact (h.steady.replays _ (phase_of_running hs hrun) _ he).elim
    | _ => cases hsource
  · cases hnone

theorem Attends.places (h : n.Attends) (hs : n.site = .up s) :
    Positioned s.node.log.entries ∧ s.node.applier.lastApplied ≤ s.node.log.lastIndex := by
  have hintact := ((firm_up hs).1 h.firm).intact
  exact ⟨hintact.positioned, Nat.le_trans hintact.applied hintact.le_length⟩

theorem Attends.serves (h : n.Attends) (hs : n.site = .up s) (a : Act) :
    (n.served a s).node.tenure.Kept (n.step a).inbound
      ∧ ((n.served a s).isRunning = true → (n.served a s).node.tenure.Hosts) := by
  obtain ⟨hl, happlied⟩ := h.places hs
  have hsub : n.inbound ⊆ (n.step a).inbound := by
    rw [inbound_step]
    exact List.subset_append_left _ _
  refine (does_serve h.fits hs a).kept hl happlied ((h.kept s hs).mono hsub) (h.hosts s hs) ?_
  intro hrun q request c hsrc
  rw [(h.source hs hrun hsrc).1]
  exact List.mem_append_right _ (List.mem_singleton_self _)

/-- What an act other than a crash leaves at the place of a node. -/
theorem Attends.step_up (h : n.Attends) {t : Server} (ht : (n.step a).site = .up t) :
    t.node.tenure.Kept (n.step a).inbound ∧ (t.isRunning = true → t.node.tenure.Hosts)
      ∧ t.node.tenure.done ≤ t.node.tenure.applied := by
  cases hsite : n.site with
  | up s =>
    have ha : a ≠ .crash := by
      rintro rfl
      exact not_up_crash ht
    obtain rfl := Network.Site.up.inj ((site_step h.sound hsite ha).symm.trans ht)
    obtain ⟨⟨hkeyed, hplaced⟩, hhosts⟩ := h.serves hsite a
    exact ⟨⟨hkeyed, hplaced⟩, hhosts,
      (does_serve h.fits hsite a).done_le (h.places hsite).1 (h.done s hsite)⟩
  | down r =>
    obtain ⟨settings, window, now, seed, storage, hup, -⟩ := step_of_down hsite ht
    rw [(Server.start_tenure hup).2]
    have hnobody : ∀ i x, ¬ ({} : Waiters).Has i x := fun _ _ => Waiters.not_has_empty
    exact ⟨⟨Waiters.keyed_empty, fun i x hx => absurd hx (hnobody i x)⟩,
      fun _ i x hx => absurd hx (hnobody i x), Nat.le_refl _⟩

theorem Attends.firm_crash (h : n.Attends) : n.crash.Firm := by
  unfold crash
  split
  · rename_i s hs
    obtain ⟨hl, happlied⟩ := h.places hs
    exact ⟨hl, Nat.le_trans (h.done s hs) happlied⟩
  · exact h.firm

theorem Attends.step (h : n.Attends) (hin : a.InOrder) : (n.step a).Attends where
  sound := (keeps_step h.sound a).1
  fits := h.fits.step h.sound a
  firm := by
    by_cases ha : a = .crash
    · rw [ha]
      exact h.firm_crash
    · exact (sustains_step h.firm ha hin).1
  steady := (goes_step h.steady h.sound a).steady h.steady (inbound_step n a)
  kept _ ht := (h.step_up ht).1
  hosts _ ht := (h.step_up ht).2.1
  done _ ht := (h.step_up ht).2.2

theorem attends_down {r : Node.Remains} (hlog : Positioned r.log.entries)
    (hlast : r.machine.last ≤ r.log.lastIndex) : Attends { site := .down r } where
  sound := sound_down r
  fits := by rintro s ⟨⟩
  firm := ⟨hlog, hlast⟩
  steady := steady_down r
  kept := by rintro s ⟨⟩
  hosts := by rintro s ⟨⟩
  done := by rintro s ⟨⟩

theorem Attends.steps (h : n.Attends) {acts : List Act} (hacts : ∀ a ∈ acts, a.InOrder) :
    (n.steps acts).Attends := by
  induction acts generalizing n with
  | nil => exact h
  | cons a acts ih =>
    obtain ⟨ha, hrest⟩ := List.forall_mem_cons.1 hacts
    exact ih (h.step ha) hrest

/-! ## Nobody is lost -/

theorem clientsOf_answers (l : List (Caller × ClientResponse)) :
    clientsOf (l.map fun a => .answer a.1 (.client a.2)) = l.map (·.1) := by
  unfold clientsOf
  rw [List.filterMap_map]
  exact congrFun List.filterMap_eq_map _

/-- Those that were told and those that wait, before what was said is taken. -/
theorem Attends.told_append_waiting (h : n.Attends) (hs : n.site = .up s) (ha : a ≠ .crash) :
    n.told a ++ (n.step a).waiting = (n.served a s).node.tenure.clients := by
  rw [told_of_up hs, waiting_of_up (site_step h.sound hs ha)]
  unfold Tenure.clients
  show clientsOf (_ ++ _) ++ _ = _
  rw [clientsOf_append, clientsOf_answers]
  rfl

theorem Attends.clients_eq (h : n.Attends) (hs : n.site = .up s) :
    s.node.tenure.clients = n.waiting := by
  obtain ⟨heffects, hanswers⟩ := h.sound.taken s hs
  rw [waiting_of_up hs]
  show clientsOf (s.node.effects.map Departure.effect) ++ s.node.applier.answers.map _ ++ _ = _
  rw [heffects, hanswers]
  rfl

/-- Nothing is left to be said between two acts. -/
theorem Attends.silent (h : n.Attends) (hs : n.site = .up s) :
    clientsOf s.takeEffects.1 = [] := by
  obtain ⟨heffects, hanswers⟩ := h.sound.taken s hs
  show clientsOf (s.node.effects.map Departure.effect ++ s.node.applier.answers.map _) = []
  rw [heffects, hanswers]
  rfl

theorem Attends.withdraws (h : n.Attends) (hs : n.site = .up s) (request : String) :
    (n.released (.withdraw request) ++ (n.step (.withdraw request)).waiting).Perm n.waiting := by
  have htold : n.told (.withdraw request) = [] := by
    have hsilent := h.silent hs
    rw [told_of_up hs]
    exact hsilent
  have hwithdrawn : n.withdrawn (.withdraw request)
      = (s.node.applier.waiters.cancel request).1.toList.map Waiter.caller := by
    unfold withdrawn
    rw [hs]
  have hafter : (n.step (.withdraw request)).waiting
      = (s.node.applier.waiters.cancel request).2.callers :=
    waiting_of_up (site_step h.sound hs (a := .withdraw request) nofun)
  unfold released
  rw [htold, hwithdrawn, waiting_of_up hs, hafter, callers_eq, callers_eq]
  rcases ((h.kept s hs).keyed.cancel request).2 with ⟨hnone, hitems⟩ | ⟨i, x, hsome, -, hperm⟩
  · have hitems : (s.node.applier.waiters.cancel request).2.items = s.node.applier.waiters.items :=
      hitems
    have hnone : (s.node.applier.waiters.cancel request).1 = none := hnone
    rw [hnone, hitems]
    exact List.Perm.refl _
  · have hsome : (s.node.applier.waiters.cancel request).1 = some x := hsome
    rw [hsome]
    exact (hperm.map fun item => item.2.caller).symm

/-- Those that wait go on to wait or are released, and nobody else is, but for the client whose
command comes in. -/
theorem Attends.conserves (h : n.Attends) (ha : a ≠ .crash) :
    (n.released a ++ (n.step a).waiting).Perm n.waiting
      ∨ n.inbound.length < (n.step a).inbound.length
        ∧ (n.released a ++ (n.step a).waiting).Perm (n.inbound.length :: n.waiting) := by
  cases hsite : n.site with
  -- nobody waits with a node that is down, nor with one that just came up
  | down r =>
    left
    have htold : n.told a = [] := by
      unfold told
      rw [hsite]
    have hwithdrawn : n.withdrawn a = [] := by
      unfold withdrawn
      rw [hsite]
    have hlater : (n.step a).waiting = [] := by
      cases hlater : (n.step a).site with
      | up t =>
        obtain ⟨settings, window, now, seed, storage, hup, -⟩ := step_of_down hsite hlater
        have hnone : t.node.applier.waiters = {} :=
          congrArg Tenure.waiters (Server.start_tenure hup).2
        rw [waiting_of_up hlater, hnone]
        rfl
      | down => exact waiting_of_down hlater
    unfold released
    rw [htold, hwithdrawn, waiting_of_down hsite, hlater]
    exact List.Perm.refl _
  | up s =>
    have htold := h.told_append_waiting hsite ha
    have hbefore := h.clients_eq hsite
    by_cases hnamed : ∃ request, a = .withdraw request
    · left
      obtain ⟨request, rfl⟩ := hnamed
      exact h.withdraws hsite request
    · have hnobody : n.withdrawn a = [] := by
        unfold withdrawn
        rw [hsite]
        split
        · rename_i request _
          exact absurd ⟨request, rfl⟩ hnamed
        · rfl
      unfold released
      rw [hnobody, List.append_nil, htold, ← hbefore]
      -- without a withdrawal a client comes in with its command, or nobody does
      refine ((does_serve h.fits hsite a).clients (h.places hsite).1 (h.kept s hsite)
        fun request hr => hnamed ⟨request, hr⟩).imp id ?_
      rintro ⟨hrun, q, request, c, hsrc, hperm⟩
      obtain ⟨hinbound, rfl⟩ := h.source hsite hrun hsrc
      refine ⟨?_, hperm⟩
      rw [hinbound, List.length_append]
      exact Nat.lt_succ_self _

/-- Nobody was released twice, or is released and waits; and whoever was or does came in. -/
structure Accounted (gone : List Caller) (n : Solo) : Prop where
  nodup : (gone ++ n.waiting).Nodup
  below : ∀ c ∈ gone ++ n.waiting, c < n.inbound.length

/-- A crash releases nobody, and nobody waits after it. -/
theorem Attends.crashes (h : n.Attends) :
    n.released .crash = [] ∧ (n.step .crash).waiting = [] := by
  have hlater : (n.step .crash).waiting = [] := by
    cases hlater : (n.step .crash).site with
    | up t => exact absurd hlater not_up_crash
    | down => exact waiting_of_down hlater
  refine ⟨?_, hlater⟩
  cases hsite : n.site with
  | up s =>
    have htold : n.told .crash = [] := by
      have hsilent := h.silent hsite
      rw [told_of_up hsite]
      exact hsilent
    have hwithdrawn : n.withdrawn .crash = [] := by
      unfold withdrawn
      rw [hsite]
    unfold released
    rw [htold, hwithdrawn]
    rfl
  | down r =>
    unfold released told withdrawn
    rw [hsite]
    rfl

theorem Accounted.step {gone : List Caller} (hn : n.Accounted gone) (h : n.Attends) (a : Act) :
    (n.step a).Accounted (gone ++ n.released a) := by
  have hlength : n.inbound.length ≤ (n.step a).inbound.length := by
    rw [inbound_step, List.length_append]
    exact Nat.le_add_right _ _
  by_cases ha : a = .crash
  · subst ha
    obtain ⟨hreleased, hnobody⟩ := h.crashes
    have hfewer : gone.Sublist (gone ++ n.waiting) := List.sublist_append_left _ _
    rw [hreleased, List.append_nil]
    constructor
    · rw [hnobody, List.append_nil]
      exact hn.nodup.sublist hfewer
    · rw [hnobody, List.append_nil]
      exact fun c hc => Nat.lt_of_lt_of_le (hn.below c (hfewer.subset hc)) hlength
  rcases h.conserves ha with hperm | ⟨hlt, hperm⟩
  · have hall := hperm.append_left gone
    rw [← List.append_assoc] at hall
    refine ⟨hall.nodup_iff.2 hn.nodup, fun c hc => ?_⟩
    exact Nat.lt_of_lt_of_le (hn.below c (hall.mem_iff.1 hc)) hlength
  · have hall := (hperm.append_left gone).trans List.perm_middle
    rw [← List.append_assoc] at hall
    refine ⟨hall.nodup_iff.2 (List.nodup_cons.2 ⟨fun hmem => ?_, hn.nodup⟩), fun c hc => ?_⟩
    · exact Nat.lt_irrefl _ (hn.below _ hmem)
    · rcases List.mem_cons.1 (hall.mem_iff.1 hc) with rfl | hc
      · exact hlt
      · exact Nat.lt_of_lt_of_le (hn.below c hc) hlength

theorem Accounted.steps {gone : List Caller} (hn : n.Accounted gone) (h : n.Attends)
    {acts : List Act} (hacts : ∀ a ∈ acts, a.InOrder) :
    (n.steps acts).Accounted (gone ++ n.releasedBy acts) := by
  induction acts generalizing n gone with
  | nil =>
    show n.Accounted (gone ++ [])
    rwa [List.append_nil]
  | cons a acts ih =>
    obtain ⟨ha, hrest⟩ := List.forall_mem_cons.1 hacts
    have := ih (hn.step h a) (h.step ha) hrest
    rwa [List.append_assoc] at this

/-- Whoever waits is released or goes on to wait. -/
theorem Attends.mem_steps (h : n.Attends) {acts : List Act}
    (hacts : ∀ a ∈ acts, a ≠ .crash ∧ a.InOrder) {c : Caller} (hc : c ∈ n.waiting) :
    c ∈ n.releasedBy acts ++ (n.steps acts).waiting := by
  induction acts generalizing n with
  | nil => exact hc
  | cons a acts ih =>
    obtain ⟨⟨hcrash, ha⟩, hrest⟩ := List.forall_mem_cons.1 hacts
    have hmem : c ∈ n.released a ++ (n.step a).waiting := by
      rcases h.conserves hcrash with hperm | ⟨-, hperm⟩
      · exact hperm.mem_iff.2 hc
      · exact hperm.mem_iff.2 (List.mem_cons_of_mem _ hc)
    show c ∈ n.released a ++ (n.step a).releasedBy acts ++ ((n.step a).steps acts).waiting
    rw [List.append_assoc]
    rcases List.mem_append.1 hmem with hgone | hstays
    · exact List.mem_append_left _ hgone
    · exact List.mem_append_right _ (ih (h.step ha) hrest hstays)

/-- Whoever waits goes on to wait, or leaves in one of the acts. -/
theorem Attends.waits_steps (h : n.Attends) {acts : List Act}
    (hacts : ∀ a ∈ acts, a ≠ .crash ∧ a.InOrder) (hx : n.WaitsOn i x) :
    (n.steps acts).WaitsOn i x
      ∨ ∃ before a after s, acts = before ++ a :: after ∧ (n.steps before).site = .up s
        ∧ s.Leaves (a = .withdraw ·) ((n.steps before).served a s) i x := by
  induction acts generalizing n with
  | nil => exact Or.inl hx
  | cons a acts ih =>
    obtain ⟨⟨hcrash, ha⟩, hrest⟩ := List.forall_mem_cons.1 hacts
    obtain ⟨s, hs, hhas⟩ := hx
    rcases (does_serve h.fits hs a).has (h.places hs).1 (h.kept s hs) hhas with hstays | hleaves
    · have hlater : (n.step a).WaitsOn i x := ⟨_, site_step h.sound hs hcrash, hstays⟩
      refine (ih (h.step ha) hrest hlater).imp id ?_
      rintro ⟨before, b, after, t, rfl, ht, hleaves⟩
      exact ⟨a :: before, b, after, t, rfl, ht, hleaves⟩
    · exact Or.inr ⟨[], a, acts, s, rfl, hs, hleaves⟩

theorem inbound_place (r : Node.Remains) (acts : List Act) {e : Event} {c : Caller}
    (he : e ∈ (run r acts).inbound) (hc : e.caller? = some c) :
    (run r acts).inbound[c]? = some e := by
  induction acts using List.reverseRecOn with
  | nil => cases he
  | append_singleton acts a ih =>
    rw [run_append] at he ⊢
    show ((run r acts).step a).inbound[c]? = some e
    have he : e ∈ ((run r acts).step a).inbound := he
    rw [inbound_step] at he ⊢
    rcases List.mem_append.1 he with hold | hnew
    · have hget := ih hold
      rw [List.getElem?_append_left (List.getElem?_eq_some_iff.1 hget).1]
      exact hget
    · cases a with
      | event x =>
        obtain rfl := List.mem_singleton.1 hnew
        have hplace : c = (run r acts).inbound.length := by
          cases x <;> cases hc <;> rfl
        rw [hplace]
        exact List.getElem?_concat_length
      | _ => cases hnew

/-- **No client that waits is lost.** A node starts, and starts again after crashes, over a log whose
entries stand at their indexes and that its state machine is not ahead of. A client that waits does
so with a leader, while the event loop runs; its index is in the log and not applied, and there is
the entry of the term that it expects, with the command with which it came in. Whatever happens then,
but for a crash, it is answered or withdrawn, or goes on to wait, and one of these once; it leaves
only when the apply loop comes to its index and finds that entry, when the leader steps down and
sends it on, or when its request is withdrawn. -/
theorem no_waiter_lost (r : Node.Remains) (hlog : Positioned r.log.entries)
    (hlast : r.machine.last ≤ r.log.lastIndex) (acts later : List Act)
    (hacts : ∀ a ∈ acts, a.InOrder) (hlater : ∀ a ∈ later, a ≠ .crash ∧ a.InOrder) {s : Server}
    (hs : (run r acts).site = .up s) {i : Nat} {x : Waiter}
    (hx : s.node.applier.waiters.Has i x) :
    (s.isRunning = true → s.node.role.kind = .leader)
      ∧ s.node.applier.lastApplied < i ∧ i ≤ s.node.log.lastIndex
      ∧ (∃ e q, s.node.log.get? i = some e ∧ e.term = x.term
        ∧ (run r acts).inbound[x.caller]? = some (.propose q x.request x.caller)
        ∧ e.isRequestOf q.client q.sequence = true)
      ∧ (releasedBy { site := .down r } (acts ++ later)
        ++ (run r (acts ++ later)).waiting).count x.caller = 1
      ∧ ((run r (acts ++ later)).WaitsOn i x
        ∨ ∃ before a after t, later = before ++ a :: after
          ∧ (run r (acts ++ before)).site = .up t
          ∧ t.Leaves (a = .withdraw ·) ((run r (acts ++ before)).served a t) i x) := by
  have hdown := attends_down hlog hlast
  have h : (run r acts).Attends := hdown.steps hacts
  have hall : ∀ a ∈ acts ++ later, a.InOrder :=
    List.forall_mem_append.2 ⟨hacts, fun a ha => (hlater a ha).2⟩
  obtain ⟨hlt, e, he, hterm, q, hq, hrequest⟩ := (h.kept s hs).entry (h.places hs).1 hx
  have hwaits : x.caller ∈ (run r acts).waiting := by
    rw [waiting_of_up hs, callers_eq]
    exact List.mem_map.2 ⟨(i, x), Waiters.has_iff_mem_items.1 hx, rfl⟩
  refine ⟨fun hrun => ?_, hlt, (le_length_of_entryAt he).2, ⟨e, q, he, hterm,
    inbound_place r acts hq rfl, hrequest⟩, ?_, ?_⟩
  · obtain ⟨y, hy⟩ := h.hosts s hs hrun i x hx
    obtain ⟨l, hl, -⟩ := Node.exists_leader_of_seat hy
    rw [hl]
    rfl
  · -- callers have numbers of their own, so that nobody is counted twice
    have haccount : Accounted [] ({ site := .down r } : Solo) := ⟨List.nodup_nil, by rintro c ⟨⟩⟩
    have hnodup := (haccount.steps hdown hall).nodup
    refine List.count_eq_one_of_mem hnodup ?_
    show x.caller ∈ releasedBy { site := .down r } (acts ++ later) ++ _
    rw [releasedBy_append, List.append_assoc]
    have hmem := h.mem_steps hlater hwaits
    rw [run_append]
    exact List.mem_append_right _ hmem
  · rw [run_append]
    refine (h.waits_steps hlater ⟨s, hs, hx⟩).imp id ?_
    rintro ⟨before, a, after, t, rfl, ht, hleaves⟩
    refine ⟨before, a, after, t, rfl, ?_⟩
    rw [run_append]
    exact ⟨ht, hleaves⟩

/-- The other member of the cluster holds the command too, and the apply loop comes to it. -/
def commitAlone : List Act :=
  [.event (.appendResult 2 ⟨1, 0, 1⟩ (.ok (.accepted 2 1 2))), .role, .signal]

/-- The client of `commandAlone` waits with the leader, and is answered once. -/
theorem no_waiter_lost_of_commandAlone :
    ∃ s x, (run {} (electAlone ++ commandAlone)).site = .up s
      ∧ s.node.applier.waiters.Has 2 x ∧ s.node.applier.lastApplied < 2
      ∧ (∃ e, s.node.log.get? 2 = some e ∧ e.term = x.term)
      ∧ (releasedBy { site := .down {} } (electAlone ++ commandAlone ++ commitAlone)).count 1 = 1
      ∧ (run {} (electAlone ++ commandAlone ++ commitAlone)).waiting = [] := by
  obtain ⟨s, hs, hlook⟩ := exists_of_server? (n := run {} (electAlone ++ commandAlone))
    (f := fun s => s.node.applier.waiters.items == [(2, ⟨"r", 1, 1⟩)]) (by cbv)
  have hx : s.node.applier.waiters.Has 2 ⟨"r", 1, 1⟩ := by
    rw [Waiters.has_iff_mem_items, eq_of_beq hlook]
    exact List.mem_singleton_self _
  have hgone : (run {} (electAlone ++ commandAlone ++ commitAlone)).waiting = [] := by cbv
  obtain ⟨-, hlt, -, ⟨e, -, he, hterm, -⟩, hcount, -⟩ :=
    no_waiter_lost {} positioned_nil (Nat.le_refl _) (electAlone ++ commandAlone)
      commitAlone
      (by simp [electAlone, startOne, commandAlone, Act.InOrder, Event.InOrder])
      (by simp [commitAlone, Act.InOrder, Event.InOrder]) hs hx
  rw [hgone, List.append_nil] at hcount
  exact ⟨s, _, hs, hx, hlt, ⟨e, he, hterm⟩, hcount, hgone⟩

end Raft.Solo
