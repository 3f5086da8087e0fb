import Raft.Proofs.Log.Merge
import Raft.Proofs.Solo.Leadership
import Raft.Proofs.Solo.Tenures

/-!
# Changes of role are legal

Handlers enter a term at once, but change the role only later, through a queue. A node by itself, into
which anything can come: whenever its loop takes up a tick or an event, no role event waits; none of
those it takes up is refused; and a leader that is not about to step down is in the term of its
election, has its own vote there stored, and wrote a no-op in it. As long as it is leader its log
only grows, by entries of that term.

* `Tenure.Secure a`: a candidate or leader stored its term and vote, and a leader wrote its no-op.
* `Grown t l l'`: a log grew by entries of a term.
* `Tenure.Reigns t l a`: a leader of a term whose log grew.
* `Solo.role_changes_legal`: so it is with every run.
-/

namespace Raft

open Node (stepsDown)

/-! ## What a role is held with -/

section

variable {src : Option Event} {o a b : Tenure}

/-- A candidate or leader that is not about to step down stored its term and vote, and a leader has
its no-op of the term. -/
structure Tenure.Secure (a : Tenure) : Prop where
  stored : a.seat ≠ .follower → a.retires = false → a.stored = some a.hard
  noop : ∀ x, a.seat = .leader x → a.retires = false →
    ∃ i, x.noop = some i ∧ entryAt a.log.entries i = some (.noop i a.hard.term)

theorem Tenure.secure_of_follower (h : a.seat = .follower) : a.Secure where
  stored hne := absurd h hne
  noop x hx := by
    rw [h] at hx
    cases hx

theorem Tenure.secure_of_retires (h : a.retires = true) : a.Secure where
  stored _ hr := by
    rw [h] at hr
    cases hr
  noop _ _ hr := by
    rw [h] at hr
    cases hr

/-- Other role events wait, but a step down waits now only if one did before. -/
theorem Tenure.Secure.requeue (h : a.Secure) {q : List RoleEvent} (hq : a.retires = false) :
    ({ a with queue := q } : Tenure).Secure where
  stored hne _ := h.stored hne hq
  noop x hx _ := h.noop x hx hq

/-- A leader's log grows, and what it knows of its peers changes. -/
theorem Tenure.Secure.lead (h : a.Secure) {x : Progress} (y : Progress) (said : List Effect)
    (hseat : a.seat = .leader x) (hnoop : y.noop = x.noop) :
    ({ a with seat := .leader y, said } : Tenure).Secure where
  stored _ hr := h.stored (by rw [hseat]; exact nofun) hr
  noop z hz hr := by
    obtain rfl := Seat.leader.inj hz
    rw [hnoop]
    exact h.noop x hseat hr

theorem Deed.secure (h : Deed src o a b) (ha : a.Secure) : b.Secure := by
  have hfree : a.queue = [] → a.retires = false := fun hqueue => Tenure.retires_of_queue hqueue
  cases h with
  | say e | register => exact ⟨ha.stored, ha.noop⟩
  | follow _ hseat | merge _ _ hseat => exact Tenure.secure_of_follower hseat
  | summon hqueue | elect _ hqueue | commit _ hqueue => exact ha.requeue (hfree hqueue)
  | yield t l => exact Tenure.secure_of_retires rfl
  | postpone e l => exact Tenure.secure_of_retires rfl
  | stand t =>
    refine ⟨fun _ _ => rfl, ?_⟩
    rintro x ⟨⟩
  | count peer votes hqueue hseat =>
    refine ⟨fun _ _ => ha.stored (by rw [hseat]; exact nofun) (hfree hqueue), ?_⟩
    rintro x ⟨⟩
  | lead votes l _ hqueue hseat hl =>
    refine ⟨fun _ _ => ha.stored (by rw [hseat]; exact nofun) (hfree hqueue), ?_⟩
    rintro x ⟨⟩ -
    exact ⟨_, rfl, by rw [hl]; exact entryAt_append_last⟩
  | append q request caller x l _ hqueue hseat hl =>
    refine ⟨ha.stored, fun y hy hr => ?_⟩
    obtain ⟨i, hi, he⟩ := ha.noop y hy hr
    exact ⟨i, hi, entryAt_of_isPrefix (by rw [hl]; exact List.prefix_append _ _) he⟩
  | send peer r x next commit limit hseat => exact ha.lead _ _ hseat rfl
  | tally peer request y x _ _ _ _ hseat => exact ha.lead _ a.said hseat rfl
  | retreat peer request y hint next x _ _ _ _ _ hseat =>
    exact ha.lead _ a.said hseat rfl

theorem Tenure.secure_receive (h : a.Secure) : (a.receive src).Secure := by
  unfold receive
  split
  · rename_i x hx
    split
    · exact h.lead _ a.said hx rfl
    · exact h
  · exact h

theorem Worked.secure (h : Worked src a b) (ha : a.Secure) : b.Secure := by
  cases h with
  | told i hqueue => exact ha.requeue (Tenure.retires_of_queue hqueue)
  | retired l rest others hqueue hothers =>
    refine Tenure.secure_of_follower ?_
    unfold Tenure.retire
    cases a.seat <;> rfl
  | handled _ htakes h =>
    exact h.induct (P := Tenure.Secure) (fun _ _ _ hx hdeed => hdeed.secure hx)
      (Tenure.secure_receive (ha.requeue htakes.stays))

theorem Tenure.Kin.secure (h : a.Kin b) (ha : a.Secure) : b.Secure := by
  obtain ⟨log, applied, done, waiters, replied, said, hlog, rfl⟩ := h
  refine ⟨ha.stored, fun x hx hr => ?_⟩
  show ∃ i, x.noop = some i ∧ entryAt log.entries i = _
  rw [hlog]
  exact ha.noop x hx hr

/-! ## A reign -/

/-- A log grew, by entries of a term that continue it. -/
def Grown (t : Nat) (l l' : List Entry) : Prop :=
  ∃ es, l' = l ++ es ∧ Consecutive l.length es ∧ ∀ e ∈ es, e.term = t

theorem Grown.refl (t : Nat) (l : List Entry) : Grown t l l :=
  ⟨[], (List.append_nil l).symm, consecutive_nil, by simp⟩

theorem Grown.concat {t : Nat} {l l' : List Entry} (h : Grown t l l') {e : Entry}
    (hindex : e.index = l'.length + 1) (hterm : e.term = t) : Grown t l (l' ++ [e]) := by
  obtain ⟨es, rfl, hplace, hes⟩ := h
  refine ⟨es ++ [e], List.append_assoc .., ?_, ?_⟩
  · rw [consecutive_append]
    refine ⟨hplace, consecutive_cons.2 ⟨?_, consecutive_nil⟩⟩
    rw [hindex, List.length_append]
  · intro x hx
    rcases List.mem_append.1 hx with hx | hx
    · exact hes x hx
    · rw [List.mem_singleton.1 hx]
      exact hterm

/-- The node leads, its log grew by entries of a term, and it is in that term unless it is about to
step down. -/
structure Tenure.Reigns (t : Nat) (l : List Entry) (a : Tenure) : Prop where
  leads : ∃ x, a.seat = .leader x
  grown : Grown t l a.log.entries
  stays : a.retires = false → a.hard.term = t

variable {t : Nat} {l : List Entry}

/-- No deed ends a reign: the seat is given up by a step down only. -/
theorem Deed.reigns (h : Deed src o a b) (ha : a.Reigns t l) : b.Reigns t l := by
  obtain ⟨⟨x, hx⟩, hgrown, hstays⟩ := ha
  have hfree : a.queue = [] → a.retires = false := fun hqueue => Tenure.retires_of_queue hqueue
  have hother : ∀ y : Seat, a.seat = y → (∀ x, y ≠ .leader x) → False := by
    rintro y rfl hy
    exact hy x hx
  cases h with
  | say | register => exact ⟨⟨x, hx⟩, hgrown, hstays⟩
  | follow _ hseat | merge _ _ hseat | summon _ hseat => exact (hother _ hseat nofun).elim
  | elect _ _ hseat | count _ _ _ hseat | lead _ _ _ _ hseat => exact (hother _ hseat nofun).elim
  | stand _ _ _ hseat => exact absurd hx (hseat x)
  | commit i hqueue => exact ⟨⟨x, hx⟩, hgrown, fun _ => hstays (hfree hqueue)⟩
  | yield => exact ⟨⟨x, hx⟩, hgrown, nofun⟩
  | postpone => exact ⟨⟨x, hx⟩, hgrown, nofun⟩
  | append q request caller y l' _ hqueue hseat hl =>
    refine ⟨⟨x, hx⟩, ?_, hstays⟩
    show Grown t l l'.entries
    rw [hl]
    exact hgrown.concat rfl (hstays (hfree hqueue))
  | send => exact ⟨⟨_, rfl⟩, hgrown, hstays⟩
  | tally => exact ⟨⟨_, rfl⟩, hgrown, hstays⟩
  | retreat => exact ⟨⟨_, rfl⟩, hgrown, hstays⟩

theorem Tenure.reigns_receive (h : a.Reigns t l) : (a.receive src).Reigns t l := by
  unfold receive
  split
  · split
    · exact ⟨⟨_, rfl⟩, h.grown, h.stays⟩
    · exact h
  · exact h

/-- A work leaves the log grown, and the reign goes on or has ended. -/
theorem Worked.reigns (h : Worked src a b) (ha : a.Reigns t l) :
    Grown t l b.log.entries ∧ (b.seat = .follower ∨ b.Reigns t l) := by
  have hpop : a.retires = false → ({ a with queue := [] } : Tenure).Reigns t l :=
    fun hr => ⟨ha.leads, ha.grown, fun _ => ha.stays hr⟩
  cases h with
  | told i hqueue => exact ⟨ha.grown, Or.inr (hpop (Tenure.retires_of_queue hqueue))⟩
  | retired l rest others hqueue hothers =>
    obtain ⟨x, hx⟩ := ha.leads
    rw [Tenure.retire_of_leader hx]
    exact ⟨ha.grown, Or.inl rfl⟩
  | handled _ htakes h =>
    have hb := h.induct (P := Tenure.Reigns t l) (fun _ _ _ hx hdeed => hdeed.reigns hx)
      (Tenure.reigns_receive (hpop htakes.stays))
    exact ⟨hb.grown, Or.inr hb⟩

end

/-! ## A node by itself -/

namespace Solo

variable {n : Solo} {t : Nat} {l : List Entry}

def leads (n : Solo) : Bool := n.server?.any fun s => s.node.role.kind == .leader

/-- The node leads before, between and after some acts. -/
def leadsOn (n : Solo) : List Act → Bool
  | [] => n.leads
  | a :: acts => n.leads && (n.step a).leadsOn acts

theorem exists_of_leads (h : n.leads = true) :
    ∃ s x, n.site = .up s ∧ s.node.tenure.seat = .leader x := by
  obtain ⟨s, hs, hkind⟩ := exists_of_server? h
  have hkind : s.node.role.kind = .leader := by simpa using hkind
  cases hrole : s.node.role with
  | follower | candidate =>
    rw [hrole] at hkind
    cases hkind
  | leader x => exact ⟨s, _, hs, Node.seat_of_leader hrole⟩

/-- The log of a node that is up grew by entries of a term, and while the event loop runs the reign
has not ended. -/
structure Reigns (t : Nat) (l : List Entry) (n : Solo) : Prop where
  grown : ∀ s, n.site = .up s → Grown t l s.node.log.entries
  reigns : ∀ s, n.site = .up s → s.isRunning = true → s.node.tenure.Reigns t l

/-- One act after which the node leads. -/
theorem Reigns.step (h : n.Reigns t l) (hsound : n.Sound) (hfits : n.Fits) {a : Act}
    (hbefore : n.leads = true) (hafter : (n.step a).leads = true) : (n.step a).Reigns t l := by
  obtain ⟨s, x, hs, hx⟩ := exists_of_leads hbefore
  obtain ⟨s', x', hs', hx'⟩ := exists_of_leads hafter
  have hup : a ≠ .crash := by
    rintro rfl
    exact not_up_crash hs'
  have hsite := site_step hsound hs hup
  have hdoes := does_serve hfits hs a
  generalize n.served a s = m at hsite hdoes
  obtain rfl := Network.Site.up.inj (hsite.symm.trans hs')
  have hgrown := h.grown s hs
  suffices hm : Grown t l m.node.log.entries
      ∧ (m.isRunning = true → m.node.tenure.Reigns t l) by
    constructor
    · intro y hy
      obtain rfl := Network.Site.up.inj (hsite.symm.trans hy)
      exact hm.1
    · intro y hy hrun
      obtain rfl := Network.Site.up.inj (hsite.symm.trans hy)
      obtain ⟨hleads, hgrown, hstays⟩ := hm.2 hrun
      exact ⟨hleads, hgrown, hstays⟩
  rcases hdoes.idles_or_labours with ⟨hended, hidles⟩ | ⟨src, hrun, -, hlabours⟩
  · -- the event loop does nothing: the seat and the log are what they were
    obtain ⟨log, applied, done, waiters, replied, hlog, hsame⟩ := hidles
    have hentries : m.node.log.entries = s.node.log.entries :=
      (congrArg (fun a : Tenure => a.log.entries) hsame).trans hlog
    refine ⟨hentries ▸ hgrown, fun hrun => ?_⟩
    obtain ⟨hleads, -, hstays⟩ := h.reigns s hs (Server.isRunning_of_ended hended ▸ hrun)
    rw [hsame]
    exact ⟨hleads, by rw [hlog]; exact hgrown, hstays⟩
  · have hreigns := h.reigns s hs hrun
    cases hlabours with
    | goes hended hworked =>
      obtain ⟨hgrown, hfollower | hb⟩ := hworked.reigns hreigns
      · -- the reign goes on: a node that stepped down would follow
        have hx' : m.node.tenure.seat = .leader x' := hx'
        rw [hfollower] at hx'
        cases hx'
      · exact ⟨hgrown, fun _ => hb⟩
    | ends k hended hworked hspares =>
      refine ⟨?_, fun hrun => ?_⟩
      · have hlog : m.node.log.entries = k.log.entries := hspares.log
        rw [hlog]
        exact (hworked.reigns hreigns).1
      · exact absurd hrun (Server.not_isRunning hended)

/-- **Any number of acts** during which the node leads. -/
theorem Reigns.steps (h : n.Reigns t l) (hsound : n.Sound) (hfits : n.Fits) {acts : List Act}
    (hleads : n.leadsOn acts = true) : (n.steps acts).Reigns t l := by
  induction acts generalizing n with
  | nil => exact h
  | cons a acts ih =>
    unfold leadsOn at hleads
    rw [Bool.and_eq_true] at hleads
    have hafter : (n.step a).leads = true := by
      cases acts with
      | nil => exact hleads.2
      | cons b acts =>
        have hrest := hleads.2
        unfold leadsOn at hrest
        rw [Bool.and_eq_true] at hrest
        exact hrest.1
    exact ih (h.step hsound hfits hleads.1 hafter) (keeps_step hsound a).1 (hfits.step hsound a)
      hleads.2

/-- **Changes of role are legal and come first.** Whatever came in and whatever failed: whatever
waits in the inbox and whatever the time is, the loop takes up a tick or an event only if no role
event waits, and nothing it takes up asks for a change of role that is refused. A leader that is not
about to step down is in the term in which it won its election, its vote for itself is stored, and
its log has its no-op; and as long as it leads, its log only grows, by entries of that term. -/
theorem role_changes_legal (r : Node.Remains) (acts : List Act) {s : Server}
    (hs : (run r acts).site = .up s) :
    (∀ inbox now w t, ({ s.setClock now with inbox } : Server).take? = some (w, t) →
        (w = .tick ∨ (∃ e, w = .event e) → s.node.queue = [])
          ∧ ∀ x, Action.outcome (w.run.run t.node) ≠ .error (.error (.transition x)))
      ∧ (s.isRunning = true → s.node.queue.any stepsDown = false →
          ∀ x, s.node.role = .leader x →
            Won (run r acts).inbound s.node.id s.node.settings.cluster.members.length s.node.term
            ∧ s.node.stored = some ⟨s.node.term, some ⟨s.node.id, s.node.term⟩⟩
            ∧ (∃ i, x.noop = some i ∧ s.node.log.get? i = some (.noop i s.node.term))
            ∧ ∀ later t, (run r acts).leadsOn later = true →
                (run r (acts ++ later)).site = .up t →
                Grown s.node.term s.node.log.entries t.node.log.entries) := by
  have hfits := fits_run r acts
  refine ⟨fun inbox now w t htake => ?_, fun hrun hstays x hrole => ?_⟩
  · have hrun : s.isRunning = true := by
      unfold Server.take? at htake
      split at htake
      · assumption
      · cases htake
    exact Server.take?_legal (s := { s.setClock now with inbox }) (hfits s hs hrun) htake
  · -- the seat keeps the no-op and the stored term; the profile keeps the votes
    obtain ⟨-, hstored, hnoop⟩ := maintains_run (P := Tenure.Secure)
      (fun _ _ _ _ ha h => h.secure ha) (fun _ _ ha h => h.secure ha)
      (fun _ ha => Tenure.secure_of_follower ha) r acts s hs hrun
    have hseat := Node.seat_of_leader hrole
    have hstored : s.node.stored = some s.node.hard :=
      hstored (by rw [hseat]; exact nofun) hstays
    have hpost : s.node.profile.post = .leader x.transfer := by
      show s.node.role.post = _
      rw [hrole]
      rfl
    obtain ⟨t, votes, ht, hmajority⟩ :=
      (backed_run r acts _ (phase_of_running hs hrun)).of_leader hpost
    have hhard : s.node.hard = ⟨t, some ⟨s.node.id, t⟩⟩ := ht.stays hstays
    have hterm : s.node.term = t := congrArg HardState.term hhard
    refine ⟨?_, ?_, hnoop _ hseat hstays, fun later u hleads hu => ?_⟩
    · rw [hterm]
      exact ⟨votes, ht.collected, hmajority⟩
    · rw [hstored, hhard, hterm]
    · rw [run_append] at hu
      refine (Reigns.steps (t := s.node.term) (l := s.node.log.entries) ?_ (sound_run r acts) hfits
        hleads).grown u hu
      constructor
      · intro y hy
        obtain rfl := Network.Site.up.inj (hs.symm.trans hy)
        exact Grown.refl _ _
      · intro y hy _
        obtain rfl := Network.Site.up.inj (hs.symm.trans hy)
        exact ⟨⟨_, hseat⟩, Grown.refl _ _, fun _ => rfl⟩

/-- The leader of `electAlone` takes a command. -/
def commandAlone : List Act := [.event (.propose ⟨"c", 1, [7]⟩ "r" 0)]

theorem role_changes_legal_of_electAlone :
    ∃ s t, (run {} electAlone).site = .up s ∧ (run {} (electAlone ++ commandAlone)).site = .up t
      ∧ s.isRunning = true ∧ s.node.queue.any stepsDown = false ∧ s.node.role.kind = .leader
      ∧ (run {} electAlone).leadsOn commandAlone = true
      ∧ Won (run {} electAlone).inbound s.node.id s.node.settings.cluster.members.length 1
      ∧ s.node.stored = some ⟨1, some ⟨1, 1⟩⟩
      ∧ s.node.log.entries = [.noop 1 1]
      ∧ Grown 1 s.node.log.entries t.node.log.entries
      ∧ t.node.log.entries.length = 2 := by
  obtain ⟨s, hs, hlook⟩ := exists_of_server? (n := run {} electAlone) (f := fun s =>
    s.isRunning && s.node.queue.isEmpty && s.node.role.kind == .leader && s.node.term == 1
      && s.node.id == 1 && s.node.log.entries == [.noop 1 1]) (by cbv)
  obtain ⟨t, ht, hlength⟩ := exists_of_server? (n := run {} (electAlone ++ commandAlone))
    (f := fun s => s.node.log.entries.length == 2) (by cbv)
  have hleads : (run {} electAlone).leadsOn commandAlone = true := by cbv
  simp only [Bool.and_eq_true, beq_iff_eq, List.isEmpty_iff] at hlook
  obtain ⟨⟨⟨⟨⟨hrun, hqueue⟩, hkind⟩, hterm⟩, hid⟩, hlog⟩ := hlook
  have hstays : s.node.queue.any stepsDown = false := by
    rw [hqueue]
    rfl
  cases hrole : s.node.role with
  | follower | candidate =>
    rw [hrole] at hkind
    cases hkind
  | leader x =>
    obtain ⟨hwon, hstored, -, hgrown⟩ := (role_changes_legal {} electAlone hs).2 hrun hstays x hrole
    rw [hterm, hid] at hstored
    rw [hterm] at hwon
    have hgrown := hgrown commandAlone t hleads ht
    rw [hterm] at hgrown
    exact ⟨s, t, hs, ht, hrun, hstays, by rw [hrole]; rfl, hleads, hwon, hstored, hlog, hgrown,
      by simpa using hlength⟩

end Solo

end Raft
