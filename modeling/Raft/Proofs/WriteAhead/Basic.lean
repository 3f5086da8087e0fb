import Raft.Proofs.Node.Follower
import Raft.Proofs.Node.Leader
import Raft.Server

/-!
# What a node writes before it speaks

A node that makes an effect visible has its term and its vote on stable storage, and what the effect
promises is stored with it. When a write fails, the node stops with a fatal error before it says
anything more. Nothing is assumed of the events it handles, nor of the storage it started from.

* `HardState.Precedes h h'`: a node that stored `h` can store `h'` later.
* `Departure.WrittenAhead inbound d`: what left the node was stored before.
* `Node.Written inbound base n`: a node between two writes that started from the hard state `base`;
  `Node.Durable` is what is left of that when a write fails.
* `Work.run_keeps`: whatever the loop handles keeps it so.
-/

namespace Raft

/-! ## Terms and votes -/

namespace HardState

/-- A vote carries the term of its state. -/
def Sound (h : HardState) : Prop := ∀ v, h.vote = some v → v.term = h.term

/-- The term does not fall, and a vote stays as long as its term does. -/
structure Precedes (h h' : HardState) : Prop where
  term_le : h.term ≤ h'.term
  vote_eq : h'.term = h.term → ∀ v, h.vote = some v → v.term = h.term → h'.vote = some v
  sound : h.Sound → h'.Sound

variable {h h' h'' : HardState} {t : Nat} {x : NodeId}

theorem Precedes.refl (h : HardState) : h.Precedes h :=
  ⟨Nat.le_refl _, fun _ _ hv _ => hv, fun hs => hs⟩

theorem Precedes.trans (a : h.Precedes h') (b : h'.Precedes h'') : h.Precedes h'' := by
  constructor
  · exact Nat.le_trans a.term_le b.term_le
  · intro ht v hv hvt
    have ha := a.term_le
    have hb := b.term_le
    have heq : h'.term = h.term := by omega
    apply b.vote_eq (by omega) v (a.vote_eq heq v hv hvt)
    omega
  · intro hs
    exact b.sound (a.sound hs)

theorem precedes_adopt (ht : h.term < t) : h.Precedes ⟨t, none⟩ := by
  constructor
  · exact Nat.le_of_lt ht
  · intro heq
    exact absurd heq (Nat.ne_of_gt ht)
  · intro _ v hv
    cases hv

/-- A vote can be stored if nobody else has that of its term. -/
theorem precedes_vote (hle : h.term ≤ t)
    (hfree : h.term = t → ∀ v, h.vote = some v → v.term = t → v.candidate = x) :
    h.Precedes ⟨t, some ⟨x, t⟩⟩ := by
  constructor
  · exact hle
  · intro heq v hv hvt
    have ht : h.term = t := heq.symm
    obtain rfl := hfree ht v hv (by omega)
    cases v
    simp_all
  · intro _ v hv
    obtain rfl := Option.some.inj hv
    rfl

end HardState

/-! ## What left the node -/

/-- The term that an effect tells another node. -/
def Effect.term? : Effect → Option Nat
  | .send _ r => some r.term
  | .answer _ (.vote (.ok a)) => some a.term
  | .answer _ (.append (.ok a)) => some a.term
  | .answer _ (.timeoutNow (.ok a)) => some a.term
  | .answer .. => none

/-- A vote is granted, or entries are confirmed. -/
def Effect.Binds : Effect → Prop
  | .answer _ (.vote (.ok a)) => a.granted = true
  | .answer _ (.append (.ok a)) => a.success = true
  | _ => False

/-- The caller of an event stands for that event. Callers are numbered as their events come in. -/
def Event.IsAmong (inbound : List Event) (e : Event) : Prop :=
  ∀ c, e.caller? = some c → inbound[c]? = some e

/-- The term that left the node was stored, with the node's vote; a vote that is granted was stored,
and the stored log holds what is confirmed. -/
structure Departure.WrittenAhead (inbound : List Event) (d : Departure) : Prop where
  stored : d.stored.getD {} = d.hard
  term : ∀ t, d.effect.term? = some t → t = d.hard.term
  vote : ∀ c a, d.effect = .answer c (.vote (.ok a)) → a.granted = true →
    ∃ r, inbound[c]? = some (.voteRequest r c) ∧ a.term = r.term
      ∧ d.stored = some ⟨r.term, some ⟨r.candidate, r.term⟩⟩
  append : ∀ c a, d.effect = .answer c (.append (.ok a)) → a.success = true →
    ∃ r, inbound[c]? = some (.appendRequest r c) ∧ a.term = r.term ∧ a.matchIndex = r.last
      ∧ (Consecutive r.prevIndex r.entries → r.HeldBy d.log.entries)

theorem Departure.WrittenAhead.mono {inbound later : List Event} {d : Departure}
    (h : d.WrittenAhead inbound) (hl : inbound <+: later) : d.WrittenAhead later := by
  have hget : ∀ {c : Caller} {e : Event}, inbound[c]? = some e → later[c]? = some e := by
    intro c e he
    obtain ⟨rest, rfl⟩ := hl
    rw [List.getElem?_append_left (List.getElem?_eq_some_iff.1 he).1, he]
  constructor
  · exact h.stored
  · exact h.term
  · intro c a hd ha
    obtain ⟨r, hr, hrest⟩ := h.vote c a hd ha
    exact ⟨r, hget hr, hrest⟩
  · intro c a hd ha
    obtain ⟨r, hr, hrest⟩ := h.append c a hd ha
    exact ⟨r, hget hr, hrest⟩

namespace Node

variable {α β : Type} {inbound : List Event} {base : HardState} {n m k : Node}
  {x : Action Node α} {Q Q' : α → Node → Prop} {R : β → Node → Prop}

theorem writtenAhead_of_not_binds {e : Effect} (hs : n.stored.getD {} = n.hard)
    (ht : ∀ t, e.term? = some t → t = n.hard.term) (he : ¬ e.Binds) :
    (n.departure e).WrittenAhead inbound := by
  constructor
  · exact hs
  · exact ht
  · intro c a hd ha
    obtain rfl : e = _ := hd
    exact absurd ha he
  · intro c a hd ha
    obtain rfl : e = _ := hd
    exact absurd ha he

/-! ## Nodes -/

/-- What a node made visible since it held the hard state `base`, and what it stored. -/
structure Durable (inbound : List Event) (base : HardState) (n : Node) : Prop where
  precedes : base.Precedes (n.stored.getD {})
  ahead : ∀ d ∈ n.effects, d.WrittenAhead inbound
  between : ∀ d ∈ n.effects, base.Precedes d.hard ∧ d.hard.Precedes (n.stored.getD {})
  rising : n.effects.Pairwise fun a b => a.hard.Precedes b.hard
  queue : ∀ e, RoleEvent.replay e ∈ n.queue → e.IsAmong inbound

/-- A node between two writes. -/
structure Written (inbound : List Event) (base : HardState) (n : Node) : Prop
    extends Durable inbound base n where
  stored : n.stored.getD {} = n.hard
  unfailed : n.writeFailed = false

/-- What a run that fails leaves: a node that could go on, or a write that failed and a fatal
error. -/
def Spoils (inbound : List Event) (base : HardState) (f : Failure Error) (m : Node) : Prop :=
  m.Written inbound base ∨ m.Durable inbound base ∧ ∃ e, f = .error e ∧ e.isFatal = true

/-- The run writes before it speaks, and ends in `Q` if it succeeds. -/
def Writes (inbound : List Event) (base : HardState) (x : Action Node α) (n : Node)
    (Q : α → Node → Prop) : Prop :=
  n.Written inbound base →
    x.Ensures n (fun a m => m.Written inbound base ∧ Q a m) (Spoils inbound base)

/-- The run writes before it speaks. -/
abbrev Keeps (inbound : List Event) (base : HardState) (x : Action Node α) (n : Node) : Prop :=
  Writes inbound base x n fun _ _ => True

/-- What a write concerns in a node. -/
def paper (n : Node) : HardState × Option HardState × Bool × List Departure × List RoleEvent :=
  (n.hard, n.stored, n.writeFailed, n.effects, n.queue)

/-- The run writes nothing and says nothing. -/
def Still (x : Action Node α) (n : Node) (Q : α → Node → Prop) : Prop :=
  x.Ensures n (fun a m => m.paper = n.paper ∧ Q a m) fun _ m => m.paper = n.paper

theorem Durable.congr (h : n.Durable inbound base) (hm : m.paper = n.paper) :
    m.Durable inbound base := by
  obtain ⟨-, hm⟩ := Prod.mk.inj hm
  obtain ⟨hstored, hm⟩ := Prod.mk.inj hm
  obtain ⟨-, hm⟩ := Prod.mk.inj hm
  obtain ⟨heffects, hqueue⟩ := Prod.mk.inj hm
  constructor
  · rw [hstored]
    exact h.precedes
  · rw [heffects]
    exact h.ahead
  · rw [heffects, hstored]
    exact h.between
  · rw [heffects]
    exact h.rising
  · rw [hqueue]
    exact h.queue

theorem Written.congr (h : n.Written inbound base) (hm : m.paper = n.paper) :
    m.Written inbound base := by
  refine { h.toDurable.congr hm with stored := ?_, unfailed := ?_ }
  all_goals
    obtain ⟨hhard, hm⟩ := Prod.mk.inj hm
    obtain ⟨hstored, hm⟩ := Prod.mk.inj hm
    obtain ⟨hfailed, -⟩ := Prod.mk.inj hm
  · rw [hstored, hhard]
    exact h.stored
  · rw [hfailed]
    exact h.unfailed

/-! ## Putting runs together -/

/-- To have written is something that a run keeps to. -/
theorem writes_iff_keeps : Writes inbound base x n Q ↔
    x.Keeps (Written inbound base) (Spoils inbound base) n Q := Iff.rfl

theorem Writes.bind {f : α → Action Node β} (h : Writes inbound base x n Q)
    (hf : ∀ a m, Q a m → Writes inbound base (f a) m R) :
    Writes inbound base (x >>= f) n R := Action.Keeps.bind (writes_iff_keeps.1 h) hf

theorem Writes.weaken (h : Writes inbound base x n Q) (hQ : ∀ a m, Q a m → Q' a m) :
    Writes inbound base x n Q' := Action.Keeps.weaken (writes_iff_keeps.1 h) hQ

theorem Writes.keeps (h : Writes inbound base x n Q) : Keeps inbound base x n :=
  h.weaken fun _ _ _ => trivial

theorem hard_eq_of_paper (h : m.paper = n.paper) : m.hard = n.hard := congrArg Prod.fst h

theorem Still.writes (h : Still x n Q) :
    Writes inbound base x n fun a m => m.paper = n.paper ∧ Q a m := by
  intro hn
  apply Action.Ensures.mono h
  · intro a m hm
    exact ⟨hn.congr hm.1, hm⟩
  · intro f m hm
    exact Or.inl (hn.congr hm)

/-- A part of a run that writes nothing is passed over. -/
theorem Still.writes_bind {f : α → Action Node β} (h : Still x n Q)
    (hf : ∀ a m, m.paper = n.paper → Q a m → Writes inbound base (f a) m R) :
    Writes inbound base (x >>= f) n R :=
  h.writes.bind fun a m hm => hf a m hm.1 hm.2

theorem still_modify {g : Node → Node} (h : (g n).paper = n.paper) :
    Still (modify g) n fun _ m => m = g n := ⟨h, rfl⟩

theorem still_ofExcept {y : Except (Failure Error) α} :
    Still (Action.ofExcept y) n fun a m => y = .ok a ∧ n = m := by
  cases y with
  | ok a => exact ⟨rfl, rfl, rfl⟩
  | error f => exact rfl

theorem still_ofResult {y : Except Error α} : Still (Action.ofResult y) n fun _ m => n = m := by
  cases y with
  | ok a => exact ⟨rfl, rfl⟩
  | error e => exact rfl

theorem keeps_pure {a : α} : Keeps inbound base (pure a) n := by
  intro hn
  exact ⟨hn, trivial⟩

theorem writes_get_bind {f : Node → Action Node α} (h : Writes inbound base (f n) n Q) :
    Writes inbound base (get >>= f) n Q := h

theorem writes_set_bind {f : PUnit → Action Node α} (h : m.paper = n.paper)
    (hf : Writes inbound base (f ⟨⟩) m Q) : Writes inbound base (set m >>= f) n Q :=
  Action.keeps_set_bind (fun hn => hn.congr h) hf

theorem writes_modify_bind {g : Node → Node} {f : PUnit → Action Node α}
    (h : (g n).paper = n.paper) (hf : Writes inbound base (f ⟨⟩) (g n) Q) :
    Writes inbound base (modify g >>= f) n Q := writes_set_bind h hf

theorem writes_ite {c : Prop} [Decidable c] {y z : Action Node α}
    (hy : c → Writes inbound base y n Q) (hz : ¬ c → Writes inbound base z n Q) :
    Writes inbound base (if c then y else z) n Q :=
  Action.keeps_ite (fun hc => writes_iff_keeps.1 (hy hc)) fun hc => writes_iff_keeps.1 (hz hc)

theorem writes_ite_bind {c : Prop} [Decidable c] {y : Action Node PUnit}
    {f : PUnit → Action Node β}
    (h : Writes inbound base ((if c then y else pure ⟨⟩) >>= f) n R) :
    Writes inbound base (if c then y >>= f else f ⟨⟩) n R := by
  rwa [Action.ite_bind]

/-- A fatal error may follow a write that failed. -/
theorem spoils_persistence (what : String) (e : Error) (h : m.Durable inbound base) :
    Spoils inbound base (.error (Error.persistence what e)) m :=
  Or.inr ⟨h, _, rfl, Error.isFatal_persistence what e⟩

/-! ## Small actions -/

theorem resetTimer_still (n : Node) : Still resetTimer n fun _ _ => True := by
  refine (resetTimer_leaves n).mono_of_sure ?_
  rintro _ _ ⟨timer, seed, rfl⟩
  exact ⟨rfl, trivial⟩

theorem modifyLeader_still (f : LeaderState → LeaderState) (n : Node) :
    Still (modifyLeader f) n fun _ m => m.log = n.log := by
  refine (still_modify ?_).weaken fun _ m h => ⟨h.1, ?_⟩
  · cases n.role <;> rfl
  · rw [h.2]
    cases n.role <;> rfl

theorem count_still (f : Counters → Counters) (n : Node) :
    Still (count f) n fun _ _ => True := ⟨rfl, trivial⟩

/-- What is made visible has been written. -/
theorem Written.depart {es : List Effect} (hn : n.Written inbound base)
    (he : ∀ e ∈ es, (n.departure e).WrittenAhead inbound) :
    ({ n with effects := n.effects ++ es.map n.departure } : Node).Written inbound base := by
  refine { hn with ahead := ?_, between := ?_, rising := ?_ }
  · intro d hd
    rcases List.mem_append.1 hd with hd | hd
    · exact hn.ahead d hd
    · obtain ⟨e, hmem, rfl⟩ := List.mem_map.1 hd
      exact he e hmem
  · intro d hd
    rcases List.mem_append.1 hd with hd | hd
    · exact hn.between d hd
    · have hprecedes := hn.precedes
      obtain ⟨e, -, rfl⟩ := List.mem_map.1 hd
      show base.Precedes n.hard ∧ n.hard.Precedes (n.stored.getD {})
      rw [hn.stored] at hprecedes ⊢
      exact ⟨hprecedes, HardState.Precedes.refl _⟩
  · rw [List.pairwise_append]
    refine ⟨hn.rising, ?_, ?_⟩
    · exact List.pairwise_map.2 (List.pairwise_of_forall fun _ _ => HardState.Precedes.refl _)
    · intro d hd d' hd'
      obtain ⟨e, -, rfl⟩ := List.mem_map.1 hd'
      show d.hard.Precedes n.hard
      rw [← hn.stored]
      exact (hn.between d hd).2

/-- A request of the node's term may be sent at any time. -/
theorem Written.send {target : NodeId} {r : Request} (hn : n.Written inbound base)
    (hr : r.term = n.hard.term)
    (hm : m.paper =
      ({ n with effects := n.effects ++ [n.departure (.send target r)] } : Node).paper) :
    m.Written inbound base := by
  have hdue : ∀ e ∈ [Effect.send target r], (n.departure e).WrittenAhead inbound := by
    intro e he
    rw [List.mem_singleton.1 he]
    refine writtenAhead_of_not_binds hn.stored (fun t ht => ?_) fun h => h
    obtain rfl := Option.some.inj ht
    exact hr
  exact (hn.depart hdue).congr hm

theorem perform_writes {e : Effect}
    (he : n.stored.getD {} = n.hard → (n.departure e).WrittenAhead inbound) :
    Writes inbound base (perform e) n fun _ m => m.hard = n.hard := by
  intro hn
  have hdue : ∀ x ∈ [e], (n.departure x).WrittenAhead inbound := by
    intro x hx
    rw [List.mem_singleton.1 hx]
    exact he hn.stored
  exact Action.ensures_modify ⟨hn.depart hdue, rfl⟩

theorem answer_writes {caller : Caller} {a : Answer}
    (ht : ∀ t, (Effect.answer caller a).term? = some t → t = n.hard.term)
    (ha : ¬ (Effect.answer caller a).Binds) :
    Writes inbound base (answer caller a) n fun _ m => m.hard = n.hard :=
  perform_writes fun hs => writtenAhead_of_not_binds hs ht ha

theorem send_writes {target : NodeId} {r : Request} (hr : r.term = n.hard.term) :
    Writes inbound base (send target r) n fun _ m => m.hard = n.hard := by
  intro hn
  exact Action.ensures_modify ⟨hn.send hr rfl, rfl⟩

theorem Written.store {h : HardState} (hn : n.Written inbound base) (hh : n.hard.Precedes h) :
    ({ n with hard := h, stored := some h } : Node).Written inbound base := by
  have hprecedes : base.Precedes n.hard := by
    rw [← hn.stored]
    exact hn.precedes
  refine ⟨⟨hprecedes.trans hh, hn.ahead, ?_, hn.rising, hn.queue⟩, rfl, hn.unfailed⟩
  intro d hd
  obtain ⟨hbase, hlast⟩ := hn.between d hd
  rw [hn.stored] at hlast
  exact ⟨hbase, hlast.trans hh⟩

theorem setHard_writes {h : HardState} (hh : n.hard.Precedes h) :
    Writes inbound base (setHard h) n fun _ m => m.hard = h := by
  intro hn
  refine (setHard_leaves h n).mono ?_ ?_
  · rintro _ _ ⟨savesLeft, rfl⟩
    exact ⟨(hn.store hh).congr rfl, rfl⟩
  · rintro f _ ⟨⟨e, rfl⟩, rfl⟩
    exact spoils_persistence _ e { hn.toDurable with }

theorem adoptTerm_writes (t : Nat) :
    Writes inbound base (adoptTerm t) n fun _ m => m.hard.term = max n.hard.term t := by
  apply writes_get_bind
  apply writes_ite
  · intro ht
    have ht : n.hard.term < t := ht
    refine (setHard_writes (HardState.precedes_adopt ht)).weaken fun _ m hm => ?_
    rw [hm]
    show t = max n.hard.term t
    omega
  · intro ht hn
    have ht : ¬ n.hard.term < t := ht
    refine ⟨hn, ?_⟩
    omega

theorem emit_writes {e : RoleEvent} (he : ∀ x, e = .replay x → x.IsAmong inbound) :
    Writes inbound base (emit e) n fun _ m => m.hard = n.hard ∧ m.log = n.log := by
  intro hn
  refine (emit_leaves e n).mono ?_ ?_
  · rintro _ _ ⟨-, rfl⟩
    refine ⟨{ hn with queue := ?_ }, rfl, rfl⟩
    intro x hx
    rcases List.mem_append.1 hx with hx | hx
    · exact hn.queue x hx
    · exact he x (List.mem_singleton.1 hx).symm
  · rintro f _ ⟨-, -, rfl⟩
    exact Or.inl hn

theorem emit_keeps {e : RoleEvent} (he : ∀ x, e ≠ .replay x) : Keeps inbound base (emit e) n :=
  (emit_writes fun x hx => absurd hx (he x)).keeps

theorem advanceCommit_writes (i : Nat) :
    Writes inbound base (advanceCommit i) n fun _ m => m.hard = n.hard ∧ m.log = n.log := by
  apply writes_get_bind
  apply writes_ite
  · intro _
    exact writes_set_bind (m := { n with commit := i }) rfl (emit_writes fun _ h => by cases h)
  · intro _ hn
    exact ⟨hn, rfl, rfl⟩

theorem stepDownAndReplay_keeps {leader : Option NodeId} {e : Event} (he : e.IsAmong inbound) :
    Keeps inbound base (stepDownAndReplay leader e) n := by
  apply (emit_writes fun _ h => by cases h).bind
  intro _ m _
  refine (emit_writes ?_).keeps
  rintro _ ⟨⟩
  exact he

theorem refuseVote_keeps (caller : Caller) :
    Keeps inbound base (refuseVote caller) n := by
  apply writes_get_bind
  refine (answer_writes ?_ (by simp [Effect.Binds])).keeps
  rintro t ⟨⟩
  rfl

theorem refuseAppend_keeps (caller : Caller) :
    Keeps inbound base (refuseAppend caller) n := by
  apply writes_get_bind
  refine (answer_writes ?_ (by simp [Effect.Binds, AppendResponse.refused])).keeps
  rintro t ⟨⟩
  rfl

theorem answerTimeoutNow_keeps (caller : Caller) (accepted : Bool) :
    Keeps inbound base (answerTimeoutNow caller accepted) n := by
  apply writes_get_bind
  refine (answer_writes ?_ (by simp [Effect.Binds])).keeps
  rintro t ⟨⟩
  rfl

theorem answerClient_keeps (caller : Caller) (a : ClientResponse) :
    Keeps inbound base (answer caller (.client a)) n :=
  (answer_writes (fun _ h => by cases h) (by simp [Effect.Binds])).keeps

theorem answerTransfer_keeps (caller : Caller) (a : Except Error Unit) :
    Keeps inbound base (answer caller (.transfer a)) n :=
  (answer_writes (fun _ h => by cases h) (by simp [Effect.Binds])).keeps

theorem adoptTermOf_keeps (termOf : α → Nat) (r : Except Error α) :
    Keeps inbound base (adoptTermOf termOf r) n := by
  cases r with
  | ok a => exact (adoptTerm_writes _).keeps
  | error e => exact keeps_pure

/-! ## The log -/

/-- A write to the log whose failure stops the node. -/
theorem tryLog_writes {y : Action Log α} {P : α → Log → Prop} {E : Failure Error → Log → Prop}
    {f : Except Error α → Action Node β} (hy : y.Ensures n.log P E)
    (hok : ∀ a l, P a l → Writes inbound base (f (.ok a)) { n with log := l } R)
    (herror : ∀ e l, E (.error e) l →
      (e.isStorage = false ∧ Writes inbound base (f (.error e)) { n with log := l } R)
        ∨ ∃ what x, f (.error e) = Action.fail (Error.persistence what x)) :
    Writes inbound base (tryLog y >>= f) n R := by
  intro hn
  refine Action.Ensures.bind ((tryLog_leaves hy).mono (fun _ _ h => h) ?_) ?_
  · rintro f m ⟨l, rfl, -, -⟩
    exact Or.inl { hn with }
  · rintro (e | a) m ⟨l, w, rfl, hw, hl⟩
    · rcases herror e l hl with ⟨hstorage, hrest⟩ | ⟨what, x, hfail⟩
      · rw [hstorage, Bool.or_false] at hw
        subst hw
        exact hrest { hn with }
      · rw [hfail]
        exact Action.ensures_fail (spoils_persistence what x { hn.toDurable with })
    · subst hw
      exact hok a l hl { hn with }

end Node

end Raft
