import Mathlib.Data.List.Induction
import Raft.Proofs.Node.Outline
import Raft.Proofs.Node.PeerMap

/-!
# What a transfer depends on

A leader that has a transfer under way takes nothing into its log, so that the target catches up
with it, and asks the target to take over once it has. What matters of the leader is its log, how
far it has committed, how far it counts its peers, and what it asked.

* `Handover` is what is seen of a node, `Node.handover` that of a node at work.
* `Handover.Stays h h'`: nothing happened but commits, confirmations and the end of the transfer.
* `Handover.Goes src h h'`: what can happen while a node handles an event.
* `Handover.Frozen since h target`: what is true of a leader since its transfer to a target began.
* `Handover.Begins`, `Handover.Holds`: acts that begin a transfer, and what they leave;
  `Handover.holds_along` leads from the one to the other.
-/

namespace Raft

open Node (stepsDown)

/-- The request to take over that an effect sends, with its target. -/
def Effect.asked? (e : Effect) : Option (NodeId × TimeoutNowRequest) :=
  match e.request? with
  | some (target, .timeoutNow q) => some (target, q)
  | _ => none

/-- What a transfer depends on at a node, with the requests to take over that the node made. -/
structure Handover where
  entries : List Entry := []
  commit : Nat := 0
  transfer : Option Transfer := none
  /-- How far a leader counts its peers. -/
  matched : PeerMap := []
  /-- The term that the node leads. One that is about to step down leads none. -/
  leads : Option Nat := none
  /-- Whom the node asked to take over, oldest first. -/
  asks : List (NodeId × TimeoutNowRequest) := []

/-- What is seen of a node at work. -/
def Node.handover (n : Node) : Handover where
  entries := n.log.entries
  commit := n.commit
  transfer := n.leader?.bind LeaderState.transfer
  matched := (n.leader?.map LeaderState.matched).getD []
  leads := if n.queue.any stepsDown then none else n.leader?.map fun _ => n.term
  asks := n.effects.filterMap fun d => d.effect.asked?

namespace Handover

/-- How far a peer is counted; nothing is counted for one that is not known. -/
def matchIndex (h : Handover) (p : NodeId) : Nat := (h.matched.lookup p).getD 0

/-- Nothing happened to a log and to what was asked. A transfer is to the target that it was to, or
none is under way any more; what was committed was in the log. -/
structure Stays (h h' : Handover) : Prop where
  entries : h'.entries = h.entries
  commit_le : h'.commit ≤ max h.commit h.entries.length
  asks : h'.asks = h.asks
  transfer : ∀ y, h'.transfer = some y →
    ∃ x, h.transfer = some x ∧ y.target = x.target ∧ y.asked = x.asked
  matched : h'.transfer ≠ none → ∀ p, h.matchIndex p ≤ h'.matchIndex p

/-- A leader has a transfer under way whose target was not asked, and counts it for the whole log.
-/
structure Ripe (h : Handover) (x : Transfer) (q : TimeoutNowRequest) : Prop where
  transfer : h.transfer = some x
  asked : x.asked = false
  holds : h.entries.length ≤ h.matchIndex x.target
  leads : h.leads = some q.term

/-- The target of a transfer is asked to take over. -/
def ask (h : Handover) (x : Transfer) (q : TimeoutNowRequest) : Handover :=
  { h with transfer := some { x with asked := true }, asks := h.asks ++ [(x.target, q)] }

/-- What can happen before anybody is asked, while a node handles an event, or something else if
`src` is absent. -/
inductive Prepares (src : Option Event) (h h' : Handover) : Prop
  /-- A transfer is under way. -/
  | stays (hx : h.transfer ≠ none) (hstays : h.Stays h')
  /-- No transfer is under way. Only a call for one can change that. -/
  | free (hnone : h.transfer = none) (hasks : h'.asks = h.asks)
      (hcall : ∀ target c, src = some (.transfer target c) → h'.transfer = none)
  /-- A transfer begins. -/
  | begins (x : Transfer) (c : Caller) (hsrc : src = some (.transfer x.target c))
      (hnone : h.transfer = none) (hx : h'.transfer = some x) (hasked : x.asked = false)
      (hentries : h'.entries = h.entries) (hcommit : h'.commit ≤ max h.commit h.entries.length)
      (hasks : h'.asks = h.asks)

/-- What can happen while a node handles an event. Whoever is asked is asked last. -/
def Goes (src : Option Event) (h h' : Handover) : Prop :=
  h.Prepares src h' ∨ ∃ m x q, h.Prepares src m ∧ m.Ripe x q ∧ h' = m.ask x q

variable {src : Option Event} {h h' h'' since : Handover} {x : Transfer} {q : TimeoutNowRequest}
  {target : NodeId}

theorem Stays.refl (h : Handover) : h.Stays h where
  entries := rfl
  commit_le := Nat.le_max_left _ _
  asks := rfl
  transfer y hy := ⟨y, hy, rfl, rfl⟩
  matched _ _ := Nat.le_refl _

theorem Stays.trans (a : h.Stays h') (b : h'.Stays h'') : h.Stays h'' where
  entries := b.entries.trans a.entries
  commit_le := by
    have ha := a.commit_le
    have hb := b.commit_le
    rw [a.entries] at hb
    omega
  asks := b.asks.trans a.asks
  transfer y hy := by
    obtain ⟨x, hx, htarget, hasked⟩ := b.transfer y hy
    obtain ⟨w, hw, htarget', hasked'⟩ := a.transfer x hx
    exact ⟨w, hw, htarget.trans htarget', hasked.trans hasked'⟩
  matched hne p := by
    obtain ⟨y, hy⟩ := Option.ne_none_iff_exists'.1 hne
    obtain ⟨x, hx, -⟩ := b.transfer y hy
    exact Nat.le_trans (a.matched (by rw [hx]; simp) p) (b.matched hne p)

theorem Prepares.refl (src : Option Event) (h : Handover) : h.Prepares src h := by
  by_cases hx : h.transfer = none
  · exact .free hx rfl fun _ _ _ => hx
  · exact .stays hx (Stays.refl h)

/-- Nothing more happens to the log, and nobody is asked. -/
theorem Prepares.next (h1 : h.Prepares src h') (h2 : h'.Stays h'') : h.Prepares src h'' := by
  cases h1 with
  | stays hx hstays => exact .stays hx (hstays.trans h2)
  | free hnone hasks hcall =>
    refine .free hnone (h2.asks.trans hasks) fun target c hsrc => ?_
    by_contra hne
    obtain ⟨y, hy⟩ := Option.ne_none_iff_exists'.1 hne
    obtain ⟨x, hx, -⟩ := h2.transfer y hy
    rw [hcall target c hsrc] at hx
    cases hx
  | begins x c hsrc hnone hx hasked hentries hcommit hasks =>
    cases hy : h''.transfer with
    | none => exact .free hnone (h2.asks.trans hasks) fun _ _ _ => hy
    | some y =>
      obtain ⟨x', hx', htarget, hflag⟩ := h2.transfer y hy
      obtain rfl := Option.some.inj (hx.symm.trans hx')
      have hle := h2.commit_le
      rw [hentries] at hle
      refine .begins y c ?_ hnone hy (hflag.trans hasked) (h2.entries.trans hentries) (by omega)
        (h2.asks.trans hasks)
      rw [htarget]
      exact hsrc

/-- Which terms are led does not count, and of what was asked only what is new. -/
theorem Prepares.relabel {asks asks' : List (NodeId × TimeoutNowRequest)}
    (h1 : h.Prepares src h') (t t' : Option Nat) (hnew : h'.asks = h.asks → asks' = asks) :
    { h with leads := t, asks }.Prepares src { h' with leads := t', asks := asks' } := by
  cases h1 with
  | stays hx hstays => exact .stays hx { hstays with asks := hnew hstays.asks }
  | free hnone hasks hcall => exact .free hnone (hnew hasks) hcall
  | begins x c hsrc hnone hx hasked hentries hcommit hasks =>
    exact .begins x c hsrc hnone hx hasked hentries hcommit (hnew hasks)

/-- A loop that ends leads no more, whatever else it left. -/
theorem Prepares.stop (h1 : h.Prepares src h') (t : Option Nat) :
    h.Prepares src { h' with leads := t } := h1.relabel h.leads t fun hasks => hasks

theorem Goes.refl (src : Option Event) (h : Handover) : h.Goes src h :=
  Or.inl (Prepares.refl src h)

theorem Goes.of_leads {t : Option Nat} (h1 : { h with leads := t }.Goes src h') :
    h.Goes src h' := by
  have hprepares : ∀ {m : Handover}, { h with leads := t }.Prepares src m → h.Prepares src m :=
    fun {m} hm => hm.relabel h.leads m.leads fun hasks => hasks
  rcases h1 with hm | ⟨m, x, q, hm, hripe, rfl⟩
  · exact Or.inl (hprepares hm)
  · exact Or.inr ⟨m, x, q, hprepares hm, hripe, rfl⟩

/-- What was asked before does not count. -/
theorem Goes.after (h1 : h.Goes src h') (before : List (NodeId × TimeoutNowRequest)) :
    { h with asks := before ++ h.asks }.Goes src { h' with asks := before ++ h'.asks } := by
  have hprepares : ∀ {m : Handover}, h.Prepares src m →
      { h with asks := before ++ h.asks }.Prepares src { m with asks := before ++ m.asks } :=
    fun {m} hm => hm.relabel h.leads m.leads (congrArg (before ++ ·))
  rcases h1 with hm | ⟨m, x, q, hm, hripe, rfl⟩
  · exact Or.inl (hprepares hm)
  · refine Or.inr ⟨_, x, q, hprepares hm, ?_, ?_⟩
    · exact ⟨hripe.transfer, hripe.asked, hripe.holds, hripe.leads⟩
    · simp [ask]

/-! ## Asking -/

/-- **Who is asked.** A node that asks somebody to take over leads, asks the target of its transfer,
counts it for the whole log, and takes nothing more into its log. -/
theorem Goes.asked (h1 : h.Goes src h') (hne : h'.asks ≠ h.asks) :
    ∃ x q, h'.transfer = some x ∧ h'.asks = h.asks ++ [(x.target, q)] ∧ h'.leads = some q.term
      ∧ h'.entries.length ≤ h'.matchIndex x.target := by
  have hprepares : ∀ {m : Handover}, h.Prepares src m → m.asks = h.asks := by
    intro m hm
    cases hm with
    | stays _ hstays => exact hstays.asks
    | free _ hasks => exact hasks
    | begins _ _ _ _ _ _ _ _ hasks => exact hasks
  rcases h1 with hm | ⟨m, x, q, hm, hripe, rfl⟩
  · exact absurd (hprepares hm) hne
  · refine ⟨{ x with asked := true }, q, rfl, ?_, hripe.leads, hripe.holds⟩
    show m.asks ++ [(x.target, q)] = _
    rw [hprepares hm]

/-! ## A transfer under way -/

/-- What is true of a leader since its transfer to a target began, until it has ended. -/
structure Frozen (since h : Handover) (target : NodeId) : Prop where
  entries : h.entries = since.entries
  commit_le : h.commit ≤ max since.commit since.entries.length
  aims : ∀ x, h.transfer = some x → x.target = target
  asks : h.asks = since.asks ∧ (∀ x, h.transfer = some x → x.asked = false)
    ∨ (∃ q, h.asks = since.asks ++ [(target, q)])
      ∧ ∀ x, h.transfer = some x → x.asked = true ∧ since.entries.length ≤ h.matchIndex target

theorem Frozen.stays (hf : Frozen since h target) (hs : h.Stays h') : Frozen since h' target where
  entries := hs.entries.trans hf.entries
  commit_le := by
    have h1 := hf.commit_le
    have h2 := hs.commit_le
    rw [hf.entries] at h2
    omega
  aims y hy := by
    obtain ⟨x, hx, htarget, -⟩ := hs.transfer y hy
    rw [htarget]
    exact hf.aims x hx
  -- the target was not asked yet, or holds the log since it was
  asks := by
    rw [hs.asks]
    refine hf.asks.imp ?_ ?_
    · rintro ⟨hsame, hasked⟩
      refine ⟨hsame, fun y hy => ?_⟩
      obtain ⟨x, hx, -, hflag⟩ := hs.transfer y hy
      rw [hflag]
      exact hasked x hx
    · rintro ⟨hsaid, hheld⟩
      refine ⟨hsaid, fun y hy => ?_⟩
      obtain ⟨x, hx, -, hflag⟩ := hs.transfer y hy
      obtain ⟨hasked, hle⟩ := hheld x hx
      rw [hflag]
      exact ⟨hasked, Nat.le_trans hle (hs.matched (by rw [hy]; simp) target)⟩

theorem Frozen.ask (hf : Frozen since h target) (hr : h.Ripe x q) :
    Frozen since (h.ask x q) target := by
  have htarget := hf.aims x hr.transfer
  have hsame : h.asks = since.asks := by
    rcases hf.asks with ⟨hsame, -⟩ | ⟨-, hheld⟩
    · exact hsame
    · have hasked := (hheld x hr.transfer).1
      rw [hr.asked] at hasked
      cases hasked
  refine ⟨hf.entries, hf.commit_le, ?_, Or.inr ⟨⟨q, ?_⟩, ?_⟩⟩
  · rintro _ ⟨⟩
    exact htarget
  · show h.asks ++ [(x.target, q)] = _
    rw [hsame, htarget]
  · rintro _ ⟨⟩
    refine ⟨rfl, ?_⟩
    rw [← hf.entries, ← htarget]
    exact hr.holds

theorem Frozen.begin {c : Caller} (hnone : since.transfer = none)
    (h1 : since.Goes (some (.transfer target c)) h) (hx : h.transfer ≠ none) :
    Frozen since h target := by
  have hprepares : ∀ {m : Handover}, since.Prepares (some (.transfer target c)) m →
      m.transfer ≠ none → Frozen since m target := by
    intro m hm hne
    cases hm with
    | stays hx => exact absurd hnone hx
    | free _ _ hcall => exact absurd (hcall target c rfl) hne
    | begins x c' hsrc _ hx hasked hentries hcommit hasks =>
      obtain ⟨rfl, -⟩ := Event.transfer.inj (Option.some.inj hsrc)
      refine ⟨hentries, hcommit, ?_, Or.inl ⟨hasks, ?_⟩⟩
      · intro y hy
        rw [Option.some.inj (hx.symm.trans hy)]
      · intro y hy
        rw [← Option.some.inj (hx.symm.trans hy)]
        exact hasked
  rcases h1 with hm | ⟨m, x, q, hm, hripe, rfl⟩
  · exact hprepares hm hx
  · exact (hprepares hm (by rw [hripe.transfer]; simp)).ask hripe

/-- **One step** with the transfer under way. -/
theorem Frozen.goes (hf : Frozen since h target) (hx : h.transfer ≠ none) (h1 : h.Goes src h') :
    Frozen since h' target := by
  have hprepares : ∀ {m : Handover}, h.Prepares src m → Frozen since m target := by
    intro m hm
    cases hm with
    | stays _ hstays => exact hf.stays hstays
    | free hnone => exact absurd hnone hx
    | begins _ _ _ hnone => exact absurd hnone hx
  rcases h1 with hm | ⟨m, x, q, hm, hripe, rfl⟩
  · exact hprepares hm
  · exact (hprepares hm).ask hripe

/-- The first of some acts begins a transfer, which is under way before each other one. What is seen
after some acts is their `view`. -/
structure Begins {α : Type} (view : List α → Handover) (a : α) (later : List α) : Prop where
  idle : (view []).transfer = none
  begun : (view [a]).transfer ≠ none
  lasts : ∀ xs, xs <+: later → xs ≠ later → (view (a :: xs)).transfer ≠ none

/-- What such acts leave, with the transfer to a target. -/
structure Holds {α : Type} (view : List α → Handover) (during : List α) (target : NodeId) :
    Prop where
  /-- The log is what it was. -/
  entries : (view during).entries = (view []).entries
  /-- Nothing is committed but what was in the log, or was committed before. -/
  commit_le : (view during).commit ≤ max (view []).commit (view []).entries.length
  /-- At most one request to take over was sent, and that to the target. -/
  once : (view during).asks = (view []).asks
    ∨ ∃ q, (view during).asks = (view []).asks ++ [(target, q)]
  /-- If the last act sent one, the target is counted for the whole log. -/
  ripe : ∀ xs b, during = xs ++ [b] → (view during).asks ≠ (view xs).asks →
    (view during).entries.length ≤ (view during).matchIndex target

/-- What is committed was in the log, if the log held what was committed before. -/
theorem Holds.commit_le_length {α : Type} {view : List α → Handover} {during : List α}
    (h : Holds view during target) (hle : (view []).commit ≤ (view []).entries.length) :
    (view during).commit ≤ (view []).entries.length :=
  Nat.le_trans h.commit_le (Nat.max_le.2 ⟨hle, Nat.le_refl _⟩)

section Along

variable {α : Type} {view : List α → Handover} {a : α} {later : List α} {c : Caller}

theorem begins_singleton {b : α} (hidle : (view []).transfer = none)
    (hbegun : (view [a]).transfer ≠ none) : Begins view a [b] where
  idle := hidle
  begun := hbegun
  lasts xs hxs hne := by
    rcases List.prefix_cons_iff.1 hxs with rfl | ⟨ys, rfl, hys⟩
    · exact hbegun
    · exact absurd (by rw [List.prefix_nil.1 hys]) hne

/-- Any number of steps with the transfer under way. -/
theorem frozen_along (hb : Begins view a later)
    (hcall : (view []).Goes (some (.transfer target c)) (view [a]))
    (hgoes : ∀ xs b, ∃ src, (view xs).Goes src (view (xs ++ [b]))) :
    Frozen (view []) (view (a :: later)) target := by
  have hprefix : ∀ xs, xs <+: later → Frozen (view []) (view (a :: xs)) target := by
    intro xs
    induction xs using List.reverseRecOn with
    | nil => exact fun _ => Frozen.begin hb.idle hcall hb.begun
    | append_singleton xs b ih =>
      intro hxs
      have hpre : xs <+: later := (List.prefix_append xs [b]).trans hxs
      have hne : xs ≠ later := by
        rintro rfl
        exact absurd hxs.length_le (by simp)
      obtain ⟨src, hstep⟩ := hgoes (a :: xs) b
      exact (ih hpre).goes (hb.lasts xs hpre hne) hstep
  exact hprefix later List.prefix_rfl

/-- **A leader with a transfer under way holds still.** -/
theorem holds_along (hb : Begins view a later)
    (hcall : (view []).Goes (some (.transfer target c)) (view [a]))
    (hgoes : ∀ xs b, ∃ src, (view xs).Goes src (view (xs ++ [b]))) :
    Holds view (a :: later) target where
  entries := (frozen_along hb hcall hgoes).entries
  commit_le := (frozen_along hb hcall hgoes).commit_le
  once := (frozen_along hb hcall hgoes).asks.imp (fun h => h.1) fun h => h.1
  ripe xs b hlast hne := by
    obtain ⟨src, hstep⟩ := hgoes xs b
    rw [← hlast] at hstep
    obtain ⟨x, q, hx, -, -, hle⟩ := hstep.asked hne
    rwa [(frozen_along hb hcall hgoes).aims x hx] at hle

end Along

end Handover

end Raft
