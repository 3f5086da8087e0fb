import Mathlib.Data.List.Perm.Basic
import Raft.Proofs.Profile.Loop

/-!
# The course of a transfer

From the call on, the caller of a transfer waits, until it is told how the transfer ended.

* `Profile.Waiting told k target t p`: the caller waits, and the target was asked in the term of the
  leader if it was asked at all.
* `Concluded said accepts k target`: the caller was told, and success only if an acceptance was
  heard, or if the target was asked and the leader had gone on to a newer term.
* `Profile.Course`: one or the other; no turn leads out of it (`Course.turn`).
* `Profile.answered`: what a result that shows no newer term makes of a transfer.
-/

namespace Raft

open Node (stepsDown)

/-! ## The callers of transfers -/

namespace Profile

variable {p q : Profile}

theorem caller?_of_not_leader (h : ∀ x, p.post ≠ .leader x) : p.caller? = none := by
  unfold caller?
  cases hp : p.post with
  | leader x => exact absurd hp (h x)
  | follower | candidate => rfl

theorem callers_congr (hcaller : q.caller? = p.caller?)
    (hnotes : q.notes.filterMap Note.caller? = p.notes.filterMap Note.caller?) :
    q.callers = p.callers := by
  unfold callers
  rw [hcaller, hnotes]

/-- Whoever is told waits no more, and is still among the callers. -/
theorem callers_of_told {r : Transfer → Except Error Unit} (hcaller : q.caller? = none)
    (hnotes : q.notes = p.notes ++ p.owed r) : q.callers = p.callers := by
  unfold callers
  rw [hnotes, List.filterMap_append, caller?_owed, hcaller]
  exact List.append_nil _

theorem callers_of_begun {x : Transfer} {c : Caller} (hfree : p.caller? = none)
    (hcaller : x.caller = some c) :
    ({ p with post := .leader (some x) } : Profile).callers = p.callers ++ [c] := by
  unfold callers
  rw [hfree, caller?_of_post rfl, Option.bind_some, hcaller]
  simp

theorem callers_tell (p : Profile) (c : Caller) (x : Except Error Unit) (t : Nat) :
    ({ p with notes := p.notes ++ [.tells c x t] } : Profile).callers.Perm (p.callers ++ [c]) := by
  unfold callers
  simp only [List.filterMap_append, List.append_assoc]
  exact List.perm_append_comm.append_left _

end Profile

/-- Nobody is forgotten who wants a transfer, and only the caller of the event is new: its transfer
begins, or it is refused. -/
theorem Turn.callers {src : Option Event} {a b : Profile} (h : Turn src a b) :
    b.callers.Perm a.callers
      ∨ ∃ target c, src = some (.transfer target c) ∧ c ∉ a.callers
        ∧ b.callers.Perm (a.callers ++ [c])
        ∧ ((a.retires = false
            ∧ ∃ d, b = { a with post := .leader (some ⟨target, d, some c, false⟩) })
          ∨ ∃ e, b = { a with notes := a.notes ++ [.tells c (.error e) a.hard.term] }) := by
  cases h with
  | stand t hpost =>
    exact Or.inl (.of_eq (Profile.callers_congr (Profile.caller?_of_not_leader hpost).symm rfl))
  | count peer r votes _ _ _ _ hpost | lead votes hpost =>
    refine Or.inl (.of_eq (Profile.callers_congr (Eq.symm ?_) rfl))
    exact Profile.caller?_of_not_leader fun x hx => by rw [hpost] at hx; cases hx
  | begin target caller deadline hsrc hfresh hpost hstays =>
    refine Or.inr ⟨target, caller, hsrc, hfresh, ?_, Or.inl ⟨hstays, deadline, rfl⟩⟩
    exact .of_eq (Profile.callers_of_begun (Profile.caller?_of_post hpost) rfl)
  | refuse target caller e hsrc hfresh =>
    exact Or.inr ⟨target, caller, hsrc, hfresh, a.callers_tell .., Or.inr ⟨e, rfl⟩⟩
  | ask t hpost =>
    refine Or.inl (.of_eq (Profile.callers_congr (Profile.caller?_of_post hpost).symm ?_))
    simp [Note.caller?]
  | accept peer r t caller _ _ _ hpost hcaller =>
    refine Or.inl (.of_eq (Profile.callers_of_told (r := fun _ => .ok ()) rfl ?_))
    rw [Profile.owed_of_caller (by rw [hpost]; rfl) hcaller]
  | settle l rest => exact Or.inl (.of_eq (Profile.callers_of_told rfl rfl))
  | abort t e => exact Or.inl (.of_eq (Profile.callers_of_told rfl rfl))
  | _ => exact Or.inl (List.Perm.refl _)

/-- The callers stay apart. -/
theorem Turns.callers {src : Option Event} {a b : Profile} (h : Turns src a b)
    (ha : a.callers.Nodup) :
    b.callers.Nodup ∧ (∀ c ∈ a.callers, c ∈ b.callers)
      ∧ ∀ c ∈ b.callers, c ∈ a.callers ∨ ∃ target, src = some (.transfer target c) := by
  refine h.induct (P := fun p => p.callers.Nodup ∧ (∀ c ∈ a.callers, c ∈ p.callers)
    ∧ ∀ c ∈ p.callers, c ∈ a.callers ∨ ∃ target, src = some (.transfer target c)) ?_
    ⟨ha, fun _ hc => hc, fun _ hc => Or.inl hc⟩
  rintro x y ⟨hnodup, hkept, hnew⟩ hturn
  rcases hturn.callers with hperm | ⟨target, c, hsrc, hfresh, hperm, -⟩
  · refine ⟨hperm.nodup_iff.2 hnodup, fun c hc => hperm.mem_iff.2 (hkept c hc), ?_⟩
    exact fun c hc => hnew c (hperm.mem_iff.1 hc)
  · refine ⟨hperm.nodup_iff.2 ?_, ?_, ?_⟩
    · exact List.nodup_append.2 ⟨hnodup, List.nodup_singleton c, fun d hd e he => by
        rw [List.mem_singleton.1 he]
        rintro rfl
        exact hfresh hd⟩
    · exact fun d hd => hperm.mem_iff.2 (List.mem_append_left _ (hkept d hd))
    · intro d hd
      rcases List.mem_append.1 (hperm.mem_iff.1 hd) with hd | hd
      · exact hnew d hd
      · rw [List.mem_singleton.1 hd]
        exact Or.inr ⟨target, hsrc⟩

/-! ## What was said -/

/-- A node was asked to take over from a leader of a term. -/
def AskedIn (said : List Note) (target : NodeId) (t : Nat) : Prop :=
  ∃ r, .asks target r ∈ said ∧ r.term = t

/-- The caller of a transfer was told how it ended. It was told of success only if an acceptance of
the node's term was heard, or the target was asked in an older term. -/
def Concluded (said : List Note) (accepts : Nat → Prop) (k : Caller) (target : NodeId) : Prop :=
  ∃ x u, .tells k x u ∈ said
    ∧ (x = .ok () → (∃ t, t < u ∧ AskedIn said target t) ∨ accepts u)

section Notes

variable {said later : List Note} {accepts accepts' : Nat → Prop} {k : Caller} {target : NodeId}
  {t : Nat}

theorem AskedIn.mono (h : AskedIn said target t) (hsub : said ⊆ later) :
    AskedIn later target t := by
  obtain ⟨r, hr, hterm⟩ := h
  exact ⟨r, hsub hr, hterm⟩

theorem Concluded.mono (h : Concluded said accepts k target) (hsub : said ⊆ later)
    (haccepts : ∀ t, accepts t → accepts' t) : Concluded later accepts' k target := by
  obtain ⟨x, u, hx, hok⟩ := h
  refine ⟨x, u, hsub hx, fun hsuccess => ?_⟩
  rcases hok hsuccess with ⟨t, hlt, hasked⟩ | hyes
  · exact Or.inl ⟨t, hlt, hasked.mono hsub⟩
  · exact Or.inr (haccepts u hyes)

/-- Failure needs no reason. -/
theorem concluded_of_error {e : Error} {u : Nat} (h : .tells k (.error e) u ∈ said) :
    Concluded said accepts k target := ⟨_, u, h, nofun⟩

theorem Turn.notes_kept {src : Option Event} {p q : Profile} (h : Turn src p q) :
    p.notes <+: q.notes := by
  cases h with
  | settle | refuse | ask | accept | abort => exact List.prefix_append _ _
  | _ => exact List.prefix_rfl

end Notes

/-! ## The course -/

namespace Profile

variable {src : Option Event} {p q : Profile} {told : List Note} {accepts : Nat → Prop} {k : Caller}
  {target : NodeId} {t : Nat} {x : Transfer}

/-- The caller of a transfer waits, which began in a term. The leader is still in that term, unless
it is about to step down, and if it asked the target, then in that term. -/
structure Waiting (told : List Note) (k : Caller) (target : NodeId) (t : Nat) (p : Profile) :
    Prop where
  transfer : ∃ x, p.post = .leader (some x) ∧ x.target = target ∧ x.caller = some k
    ∧ (x.asked = true → AskedIn (told ++ p.notes) target t)
  level : p.retires = false ∧ p.hard.term = t ∨ p.retires = true ∧ t < p.hard.term

/-- The caller of a transfer waits, or it was told how the transfer ended. -/
def Course (told : List Note) (accepts : Nat → Prop) (k : Caller) (target : NodeId) (t : Nat)
    (p : Profile) : Prop :=
  p.Waiting told k target t ∨ Concluded (told ++ p.notes) accepts k target

theorem Waiting.caller? (h : p.Waiting told k target t) : p.caller? = some k := by
  obtain ⟨x, hpost, -, hcaller, -⟩ := h.transfer
  exact (caller?_of_post hpost).trans hcaller

/-- A leader that does not step down is in the term of the transfer. -/
theorem Waiting.term_eq (h : p.Waiting told k target t) (hstays : p.retires = false) :
    p.hard.term = t := by
  rcases h.level with ⟨-, hsame⟩ | ⟨hretires, -⟩
  · exact hsame
  · rw [hstays] at hretires
    cases hretires

/-- One that steps down is in a newer term. -/
theorem Waiting.lt_term (h : p.Waiting told k target t) (hretires : p.retires = true) :
    t < p.hard.term := by
  rcases h.level with ⟨hstays, -⟩ | ⟨-, hlt⟩
  · rw [hretires] at hstays
    cases hstays
  · exact hlt

theorem Waiting.eq_of_leader (h : p.Waiting told k target t) (hpost : p.post = .leader (some x)) :
    x.target = target ∧ x.caller = some k
      ∧ (x.asked = true → AskedIn (told ++ p.notes) target t) := by
  obtain ⟨y, hy, hrest⟩ := h.transfer
  obtain rfl : x = y := Option.some.inj (Post.leader.inj (hpost.symm.trans hy))
  exact hrest

theorem Waiting.congr (h : p.Waiting told k target t) (hpost : q.post = p.post)
    (hnotes : p.notes <+: q.notes)
    (hlevel : q.retires = false ∧ q.hard.term = t ∨ q.retires = true ∧ t < q.hard.term) :
    q.Waiting told k target t := by
  obtain ⟨x, hx, htarget, hcaller, hasked⟩ := h.transfer
  exact ⟨⟨x, hpost.trans hx, htarget, hcaller, fun ha => (hasked ha).mono
    ((List.prefix_append_right_inj told).2 hnotes).subset⟩, hlevel⟩

theorem Waiting.queue {e : RoleEvent} (h : p.Waiting told k target t) (hstays : stepsDown e = false) :
    ({ p with queue := p.queue ++ [e] } : Profile).Waiting told k target t := by
  refine h.congr rfl List.prefix_rfl ?_
  rw [retires_queue, hstays, Bool.or_false]
  exact h.level

theorem Waiting.take {e : RoleEvent} {rest : List RoleEvent} (h : p.Waiting told k target t)
    (hqueue : p.queue = e :: rest) (hstays : stepsDown e = false) :
    ({ p with queue := rest } : Profile).Waiting told k target t := by
  refine h.congr rfl List.prefix_rfl ?_
  rw [retires_take hqueue hstays]
  exact h.level

/-- A newer term is entered with the caller still waiting. -/
theorem Waiting.yield {u : Nat} {l : Option NodeId} (h : p.Waiting told k target t)
    (hlt : p.hard.term < u) :
    ({ p.adopt u with queue := p.queue ++ [.becomeFollower l] } : Profile).Waiting told k target
      t := by
  rw [adopt_of_lt hlt]
  refine h.congr rfl List.prefix_rfl (Or.inr ⟨by simp [retires, stepsDown], ?_⟩)
  rcases h.level with ⟨-, hsame⟩ | ⟨-, hnewer⟩
  · exact hsame ▸ hlt
  · exact Nat.lt_trans hnewer hlt

theorem Waiting.ask (h : p.Waiting told k target t) (hpost : p.post = .leader (some x))
    (hstays : p.retires = false) :
    ({ p with
      post := .leader (some { x with asked := true })
      notes := p.notes ++ [.asks x.target ⟨p.hard.term, p.self⟩] } : Profile).Waiting told k target
      t := by
  obtain ⟨htarget, hcaller, -⟩ := h.eq_of_leader hpost
  refine ⟨⟨_, rfl, htarget, hcaller, fun _ => ?_⟩, h.level⟩
  rw [← List.append_assoc, ← htarget]
  exact ⟨_, List.mem_append_right _ (List.mem_singleton_self _), h.term_eq hstays⟩

/-- Whoever waits is told what the transfer owes. -/
theorem Waiting.told_owed (h : p.Waiting told k target t) (hpost : p.post = .leader (some x))
    (r : Transfer → Except Error Unit) :
    .tells k (r x) p.hard.term ∈ told ++ (p.notes ++ p.owed r) := by
  rw [owed_of_caller (by rw [hpost]; rfl) (h.eq_of_leader hpost).2.1]
  exact List.mem_append_right _ (List.mem_append_right _ (List.mem_singleton_self _))

/-- A leader that steps down tells the caller of success only if the target was asked, and then it
is in a newer term. -/
theorem Waiting.settle {l : Option NodeId} {rest : List RoleEvent} (h : p.Waiting told k target t)
    (hqueue : p.queue = .becomeFollower l :: rest) :
    Concluded (told ++ (p.notes ++ p.owed (settlement l))) accepts k target := by
  obtain ⟨x, hpost, -, -, hasked⟩ := h.transfer
  refine ⟨_, _, h.told_owed hpost _, fun hok => ?_⟩
  unfold settlement at hok
  split at hok
  · rename_i ha
    refine Or.inl ⟨t, h.lt_term (by simp [retires, hqueue, stepsDown]), (hasked ha).mono ?_⟩
    rw [← List.append_assoc]
    exact List.subset_append_left _ _
  · cases hok

/-- An acceptance is taken for that of the target, whichever peer it comes from. -/
theorem Waiting.accept {c : Caller} (h : p.Waiting told k target t)
    (hpost : p.post = .leader (some x)) (hcaller : x.caller = some c) (hyes : accepts p.hard.term) :
    Concluded (told ++ (p.notes ++ [.tells c (.ok ()) p.hard.term])) accepts k target := by
  obtain rfl : k = c := Option.some.inj ((h.eq_of_leader hpost).2.1.symm.trans hcaller)
  exact ⟨_, _, List.mem_append_right _ (List.mem_append_right _ (List.mem_singleton_self _)),
    fun _ => Or.inr hyes⟩

/-- One turn of a node whose caller waits. Success is told where it steps down, or hears an
acceptance. -/
theorem Waiting.turn (h : p.Waiting told k target t) (hturn : Turn src p q)
    (haccepts : ∀ peer a, src = some (.timeoutNowResult peer t (.ok a)) → a.accepted = true →
      a.term ≤ t → accepts t) :
    q.Course told accepts k target t := by
  obtain ⟨x, hpost, -⟩ := h.transfer
  cases hturn with
  | follow _ hp | count _ _ _ _ _ _ _ hp | lead _ hp | begin _ _ _ _ _ hp =>
    -- a leader with a transfer under way does none of these
    rw [hpost] at hp
    cases hp
  | stand _ hp => exact absurd hpost (hp _)
  | queue e hstays => exact Or.inl (h.queue hstays)
  | take e rest hqueue hstays => exact Or.inl (h.take hqueue hstays)
  | yield u l _ hleader => exact Or.inl (h.yield (hleader _ hpost))
  | refuse => exact Or.inl (h.congr rfl (List.prefix_append _ _) h.level)
  | ask y hy _ hstays => exact Or.inl (h.ask hy hstays)
  | settle l rest hqueue => exact Or.inr (h.settle hqueue)
  | accept peer a y c hsrc hyes hle hy hc hstays =>
    have hterm := h.term_eq hstays
    refine Or.inr (h.accept hy hc ?_)
    rw [hterm] at hsrc hle ⊢
    exact haccepts peer a hsrc hyes hle
  | abort y e hy => exact Or.inr (concluded_of_error (h.told_owed hy _))

theorem Course.turn (h : p.Course told accepts k target t) (hturn : Turn src p q)
    (haccepts : ∀ peer a, src = some (.timeoutNowResult peer t (.ok a)) → a.accepted = true →
      a.term ≤ t → accepts t) :
    q.Course told accepts k target t := by
  rcases h with h | h
  · exact h.turn hturn haccepts
  · exact Or.inr (h.mono ((List.prefix_append_right_inj told).2 hturn.notes_kept).subset
      fun _ ht => ht)

theorem Course.turns (h : p.Course told accepts k target t) (hturns : Turns src p q)
    (haccepts : ∀ peer a, src = some (.timeoutNowResult peer t (.ok a)) → a.accepted = true →
      a.term ≤ t → accepts t) : q.Course told accepts k target t :=
  hturns.induct (P := fun q => q.Course told accepts k target t)
    (fun _ _ ha hturn => ha.turn hturn haccepts) h

/-- The turns of a node that takes up a call. -/
theorem course_of_call (hk : k ∉ p.callers) (hturns : Turns (some (.transfer target k)) p q) :
    k ∉ q.callers ∨ ∃ t, q.Course told accepts k target t := by
  refine hturns.induct (P := fun q => k ∉ q.callers ∨ ∃ t, q.Course told accepts k target t) ?_
    (Or.inl hk)
  rintro a b (hk | ⟨t, ht⟩) hturn
  · rcases hturn.callers with hperm | ⟨_, _, hsrc, -, -, hcall⟩
    · exact Or.inl fun hmem => hk (hperm.mem_iff.1 hmem)
    · obtain ⟨rfl, rfl⟩ := Event.transfer.inj (Option.some.inj hsrc)
      right
      rcases hcall with ⟨hstays, d, rfl⟩ | ⟨e, rfl⟩
      · exact ⟨a.hard.term, Or.inl ⟨⟨_, rfl, rfl, rfl, nofun⟩, Or.inl ⟨hstays, rfl⟩⟩⟩
      · have hnote : Note.tells k (.error e) a.hard.term
            ∈ told ++ (a.notes ++ [.tells k (.error e) a.hard.term]) :=
          List.mem_append_right _ (List.mem_append_right _ (List.mem_singleton_self _))
        exact ⟨a.hard.term, Or.inr (concluded_of_error hnote)⟩
  · exact Or.inr ⟨t, ht.turn hturn nofun⟩

/-! ## Results -/

/-- What a result of the current term that shows no newer one makes of a transfer: an acceptance
answers the caller, anything else ends the transfer. -/
def answered (p : Profile) (r : Except Error TimeoutNowResponse) : Profile :=
  match p.post.transfer?, r with
  | none, _ => p
  | some x, .ok a =>
    if a.accepted then
      { p with
        post := .leader (some { x with caller := none })
        notes := p.notes ++ p.owed fun _ => .ok () }
    else
      { p with
        post := .leader none
        notes := p.notes ++ p.owed fun _ => .error (.election (.transferRejected x.target a.term)) }
  | some _, .error e =>
    { p with post := .leader none, notes := p.notes ++ p.owed fun _ => .error e }

/-- The caller that waits is told of success if and only if the result is an acceptance. -/
theorem exists_told_of_answered (hx : p.post.transfer? = some x) (hcaller : x.caller = some k)
    (a : TimeoutNowResponse) :
    ∃ y, .tells k y p.hard.term ∈ (p.answered (.ok a)).notes
      ∧ (y = .ok () ↔ a.accepted = true) := by
  have hlast : ∀ y, .tells k y p.hard.term ∈ p.notes ++ [Note.tells k y p.hard.term] := fun y =>
    List.mem_append_right _ (List.mem_singleton_self _)
  unfold answered
  rw [hx]
  dsimp only
  split
  · rename_i hyes
    rw [owed_of_caller hx hcaller]
    exact ⟨_, hlast _, iff_of_true rfl hyes⟩
  · rename_i hno
    rw [owed_of_caller hx hcaller]
    exact ⟨_, hlast _, iff_of_false nofun hno⟩

theorem answered_post (hpost : p.post = .leader (some x)) (r : Except Error TimeoutNowResponse) :
    (p.answered r).post = .leader (some x)
      ↔ x.caller = none ∧ ∃ a, r = .ok a ∧ a.accepted = true := by
  unfold answered
  rw [show p.post.transfer? = some x by rw [hpost]; rfl]
  cases r with
  | error e => simp
  | ok a =>
    dsimp only
    split
    · rename_i hyes
      constructor
      · intro h
        exact ⟨(congrArg Transfer.caller (Option.some.inj (Post.leader.inj h))).symm, a, rfl, hyes⟩
      · rintro ⟨hcaller, -⟩
        rw [← hcaller]
    · rename_i hno
      simp [hno]

end Profile

namespace Node

variable {n : Node} {l : LeaderState} {x : Transfer} {r : Except Error TimeoutNowResponse}

theorem Leader.onTimeoutNowResult_profile (hpost : n.profile.post = .leader (some x))
    (hle : ∀ a, r = .ok a → a.term ≤ n.term) :
    (Leader.onTimeoutNowResult n.term r).Ensures n (fun _ m => m.profile = n.profile.answered r)
      fun _ _ => False := by
  have htransfer : n.profile.post.transfer? = some x := by
    rw [hpost]
    rfl
  obtain ⟨l, hrole, hx⟩ := exists_of_post_leader hpost
  unfold Leader.onTimeoutNowResult Profile.answered
  rw [htransfer]
  apply Action.ensures_get_bind
  rw [if_pos rfl]
  cases r with
  | error e => exact abortTransfer_profile hpost
  | ok a =>
    dsimp only
    rw [if_neg (Nat.not_lt.2 (hle a rfl))]
    split
    · simp only [leader?, hrole, Option.bind_some, hx]
      split
      · rename_i caller hcaller
        rw [Profile.owed_of_caller htransfer hcaller]
        exact accept_profile hpost
      · rename_i hcaller
        have hnone : n.profile.caller? = none := (Profile.caller?_of_post hpost).trans hcaller
        rw [Profile.owed_of_none hnone, List.append_nil]
        have hsame : ({ x with caller := none } : Transfer) = x := by rw [← hcaller]
        rw [hsame, ← hpost]
        exact Action.ensures_pure rfl
    · exact abortTransfer_profile hpost

/-- A result of the current term that shows no newer one is taken. -/
theorem handle_answered (hpost : n.profile.post = .leader (some x)) (peer : NodeId)
    (hle : ∀ a, r = .ok a → a.term ≤ n.term) :
    ∃ m, (handle (.timeoutNowResult peer n.term r)).run n = .ok ⟨⟩ m
      ∧ m.profile = n.profile.answered r := by
  obtain ⟨l, hrole, -⟩ := Leader.exists_of_post_leader hpost
  have h := Leader.onTimeoutNowResult_profile hpost hle
  have hhandle : (handle (.timeoutNowResult peer n.term r)).run n
      = (Leader.onTimeoutNowResult n.term r).run n := run_handle_leader hrole _
  rw [hhandle]
  unfold Action.Ensures at h
  cases hrun : (Leader.onTimeoutNowResult n.term r).run n with
  | error f m =>
    rw [hrun] at h
    exact h.elim
  | ok a m =>
    rw [hrun] at h
    exact ⟨m, rfl, h⟩

end Node

end Raft
