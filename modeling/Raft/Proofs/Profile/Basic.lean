import Mathlib.Logic.Relation
import Raft.Proofs.Node.Runs

/-!
# The profile of a node

Who stands for election or leads in which term, and what becomes of a transfer, depend on little of
a node: its profile. The handlers are taken apart into turns, which change a profile. Nothing is
assumed of the events that come in, so a turn says which event it takes.

* `Node.profile` forgets everything else.
* `Turn src a b` is one turn while the node handles the event `src`, `Turns` any number of them.
* `Halts src a f b`: what a run that fails leaves; only a fatal failure can leave it in disorder.
* `Node.Makes src o x n`: the run of `x` from `n`, which got there from `o` in turns, goes on in
  turns.
* `Node.Calm x n`: the run of `x` from `n` leaves the profile as it is, `Node.Idle x n`: and it does
  not fail.
-/

namespace Raft

/-! ## Profiles -/

/-- What a node says about handing its leadership over: it asks somebody to take over, or it tells
the caller of a transfer how it ended. The term is that of the node. -/
inductive Note where
  | asks (target : NodeId) (r : TimeoutNowRequest)
  | tells (caller : Caller) (r : Except Error Unit) (term : Nat)

def Note.caller? : Note → Option Caller
  | .asks .. => none
  | .tells caller .. => some caller

/-- What an effect says about a transfer. -/
def Departure.note? (d : Departure) : Option Note :=
  match d.effect with
  | .send target (.timeoutNow r) => some (.asks target r)
  | .answer caller (.transfer r) => some (.tells caller r d.hard.term)
  | _ => none

/-- What a role is to elections and to transfers. -/
inductive Post where
  | follower
  | candidate (votes : List NodeId)
  | leader (transfer : Option Transfer)

/-- The transfer that a leader has under way. -/
def Post.transfer? : Post → Option Transfer
  | .leader t => t
  | _ => none

theorem Post.eq_leader_of_transfer? {x : Post} {t : Transfer} (h : x.transfer? = some t) :
    x = .leader (some t) := by
  cases x with
  | leader y => exact congrArg Post.leader h
  | follower | candidate => cases h

def Role.post : Role → Post
  | .follower _ => .follower
  | .candidate _ votes => .candidate votes
  | .leader l => .leader l.transfer

/-- What elections and transfers depend on in a node. -/
structure Profile where
  self : NodeId
  /-- The number of members that a quorum of votes is taken of. -/
  voters : Nat
  post : Post
  hard : HardState
  queue : List RoleEvent
  closed : Bool
  notes : List Note

def Node.profile (n : Node) : Profile where
  self := n.view.self
  voters := n.settings.cluster.members.length
  post := n.role.post
  hard := n.hard
  queue := n.queue
  closed := n.queueClosed
  notes := n.effects.filterMap Departure.note?

namespace Profile

/-- The node is about to step down. -/
def retires (p : Profile) : Bool := p.queue.any Node.stepsDown

def adopt (p : Profile) (t : Nat) : Profile :=
  { p with hard := if p.hard.term < t then ⟨t, none⟩ else p.hard }

def standing (p : Profile) : Profile :=
  { p with
    post := .candidate [p.self]
    hard := ⟨p.hard.term + 1, some ⟨p.self, p.hard.term + 1⟩⟩ }

/-- The caller that a transfer still owes an answer. -/
def caller? (p : Profile) : Option Caller := p.post.transfer?.bind Transfer.caller

/-- The callers that were told something, and the one that waits. -/
def callers (p : Profile) : List Caller := p.notes.filterMap Note.caller? ++ p.caller?.toList

/-- What the caller that waits is told when its transfer ends. -/
def owed (p : Profile) (r : Transfer → Except Error Unit) : List Note :=
  (p.post.transfer?.bind fun t => t.caller.map fun c => Note.tells c (r t) p.hard.term).toList

/-- What the end of a leadership means for a transfer: the target may be taking over if it was asked
to. -/
def settlement (leader : Option NodeId) (t : Transfer) : Except Error Unit :=
  if t.asked then .ok () else .error (.notLeader leader)

/-- An event that comes up at a node. Results and calls are taken by nodes only that do not step
down, and every call has a caller of its own. -/
structure Admits (p : Profile) (e : Event) : Prop where
  opened : p.closed = false
  stays : e.IsRequest ∨ p.retires = false
  fresh : ∀ target caller, e = .transfer target caller → caller ∉ p.callers

end Profile

/-! ## Turns -/

open Node (stepsDown)

/-- One turn of a node that handles an event, or something else if `src` is absent. -/
inductive Turn (src : Option Event) (a : Profile) : Profile → Prop
  /-- A follower enters a term or votes. -/
  | follow (h : HardState) (hpost : a.post = .follower) (hterm : a.hard.term ≤ h.term) :
    Turn src a { a with hard := h }
  /-- Something is queued, which is not to step down. -/
  | queue (e : RoleEvent) (hstays : stepsDown e = false)
      (hreplay : ∀ x, e = .replay x → src = some x ∧ x.IsRequest) :
    Turn src a { a with queue := a.queue ++ [e] }
  /-- It enters a term and asks itself to step down; a leader does so for a newer term only. -/
  | yield (t : Nat) (l : Option NodeId) (hterm : a.hard.term ≤ t)
      (hleader : ∀ x, a.post = .leader x → a.hard.term < t) :
    Turn src a { a.adopt t with queue := a.queue ++ [.becomeFollower l] }
  /-- It takes something from its queue. -/
  | take (e : RoleEvent) (rest : List RoleEvent) (hqueue : a.queue = e :: rest)
      (hstays : stepsDown e = false) :
    Turn src a { a with queue := rest }
  /-- It steps down, and tells the caller of its transfer. -/
  | settle (l : Option NodeId) (rest : List RoleEvent)
      (hqueue : a.queue = .becomeFollower l :: rest) :
    Turn src a { a with
      post := .follower
      queue := rest
      notes := a.notes ++ a.owed (Profile.settlement l) }
  /-- It stands for election in the term after one that it has reached. -/
  | stand (t : Nat) (hpost : ∀ x, a.post ≠ .leader x) (hterm : a.hard.term ≤ t) :
    Turn src a { a with post := .candidate [a.self], hard := ⟨t + 1, some ⟨a.self, t + 1⟩⟩ }
  /-- It counts a vote. -/
  | count (peer : NodeId) (r : VoteResponse) (votes : List NodeId)
      (hsrc : src = some (.voteResult peer a.hard.term (.ok r))) (hgranted : r.granted = true)
      (hterm : r.term = a.hard.term) (hstays : a.retires = false)
      (hpost : a.post = .candidate votes) (hnew : peer ∉ votes) :
    Turn src a { a with post := .candidate (votes ++ [peer]) }
  /-- It is elected. -/
  | lead (votes : List NodeId) (hpost : a.post = .candidate votes)
      (hmajority : majority a.voters ≤ votes.length) :
    Turn src a { a with post := .leader none }
  /-- A transfer begins. -/
  | begin (target : NodeId) (caller : Caller) (deadline : Nat)
      (hsrc : src = some (.transfer target caller)) (hfresh : caller ∉ a.callers)
      (hpost : a.post = .leader none) (hstays : a.retires = false) :
    Turn src a { a with post := .leader (some ⟨target, deadline, some caller, false⟩) }
  /-- A transfer is refused. -/
  | refuse (target : NodeId) (caller : Caller) (e : Error)
      (hsrc : src = some (.transfer target caller)) (hfresh : caller ∉ a.callers) :
    Turn src a { a with notes := a.notes ++ [.tells caller (.error e) a.hard.term] }
  /-- The target of a transfer is asked to take over. -/
  | ask (t : Transfer) (hpost : a.post = .leader (some t)) (hasked : t.asked = false)
      (hstays : a.retires = false) :
    Turn src a { a with
      post := .leader (some { t with asked := true })
      notes := a.notes ++ [.asks t.target ⟨a.hard.term, a.self⟩] }
  /-- Somebody accepts to take over, and the caller is told. -/
  | accept (peer : NodeId) (r : TimeoutNowResponse) (t : Transfer) (caller : Caller)
      (hsrc : src = some (.timeoutNowResult peer a.hard.term (.ok r)))
      (haccepted : r.accepted = true) (hterm : r.term ≤ a.hard.term)
      (hpost : a.post = .leader (some t)) (hcaller : t.caller = some caller)
      (hstays : a.retires = false) :
    Turn src a { a with
      post := .leader (some { t with caller := none })
      notes := a.notes ++ [.tells caller (.ok ()) a.hard.term] }
  /-- A transfer ends without success. -/
  | abort (t : Transfer) (e : Error) (hpost : a.post = .leader (some t)) :
    Turn src a { a with
      post := .leader none
      notes := a.notes ++ a.owed fun _ => .error e }

def Turns (src : Option Event) : Profile → Profile → Prop := Relation.ReflTransGen (Turn src)

/-- What a run that fails leaves. A node that survives the failure is where its turns led; of one
that stops, what it said stays. -/
def Halts (src : Option Event) (a : Profile) (f : Failure Error) (b : Profile) : Prop :=
  ∃ m, Turns src a m ∧ b.notes = m.notes ∧ ((∃ e, f = .error e ∧ e.isFatal = false) → b = m)

section Turns

variable {src : Option Event} {a b c : Profile} {f : Failure Error}

theorem Turns.refl (a : Profile) : Turns src a a := Relation.ReflTransGen.refl

theorem Turns.step (h : Turns src a b) (h' : Turn src b c) : Turns src a c :=
  Relation.ReflTransGen.tail h h'

theorem Turn.turns (h : Turn src a b) : Turns src a b := Relation.ReflTransGen.single h

theorem Turns.halts (h : Turns src a b) : Halts src a f b := ⟨b, h, rfl, fun _ => rfl⟩

/-- A failure that stops the node leaves what was said. -/
theorem Turns.halts_of_stop (h : Turns src a b) (hc : c.notes = b.notes)
    (hf : f.Stops) : Halts src a f c := by
  refine ⟨b, h, hc, ?_⟩
  rintro ⟨e, rfl, he⟩
  rcases hf with hf | ⟨e', he', hfatal⟩
  · cases hf
  · obtain rfl := Failure.error.inj he'
    rw [he] at hfatal
    cases hfatal

/-- What every turn keeps, any number of turns keep. -/
theorem Turns.induct {P : Profile → Prop} (h : Turns src a b)
    (hstep : ∀ x y, P x → Turn src x y → P y) (ha : P a) : P b := by
  induction h with
  | refl => exact ha
  | tail _ hturn ih => exact hstep _ _ ih hturn

end Turns

namespace Profile

variable {src : Option Event} {p q : Profile} {t : Nat}

theorem adopt_of_lt (h : p.hard.term < t) : p.adopt t = { p with hard := ⟨t, none⟩ } := by
  unfold adopt
  rw [if_pos h]

theorem adopt_of_le (h : t ≤ p.hard.term) : p.adopt t = p := by
  unfold adopt
  rw [if_neg (Nat.not_lt.2 h)]

theorem term_adopt (h : p.hard.term ≤ t) : (p.adopt t).hard.term = t := by
  rcases Nat.lt_or_ge p.hard.term t with hlt | hge
  · rw [adopt_of_lt hlt]
  · rw [adopt_of_le hge]
    omega

theorem retires_queue (p : Profile) (e : RoleEvent) :
    ({ p with queue := p.queue ++ [e] } : Profile).retires = (p.retires || stepsDown e) := by
  simp [retires, List.any_append]

theorem retires_take {e : RoleEvent} {rest : List RoleEvent} (hqueue : p.queue = e :: rest)
    (hstays : stepsDown e = false) : ({ p with queue := rest } : Profile).retires = p.retires := by
  simp [retires, hqueue, hstays]

theorem caller?_of_post {t : Option Transfer} (h : p.post = .leader t) :
    p.caller? = t.bind Transfer.caller := by
  unfold caller?
  rw [h]
  rfl

theorem owed_of_caller {t : Transfer} {c : Caller} {r : Transfer → Except Error Unit}
    (ht : p.post.transfer? = some t) (hc : t.caller = some c) :
    p.owed r = [.tells c (r t) p.hard.term] := by
  unfold owed
  rw [ht, Option.bind_some, hc]
  rfl

theorem owed_of_none {r : Transfer → Except Error Unit} (h : p.caller? = none) : p.owed r = [] := by
  unfold caller? at h
  unfold owed
  cases ht : p.post.transfer? with
  | none => rfl
  | some t =>
    rw [ht, Option.bind_some] at h
    rw [Option.bind_some, h]
    rfl

/-- Whoever waits is told. -/
theorem caller?_owed (r : Transfer → Except Error Unit) :
    (p.owed r).filterMap Note.caller? = p.caller?.toList := by
  cases hc : p.caller? with
  | none =>
    rw [owed_of_none hc]
    rfl
  | some c =>
    unfold caller? at hc
    obtain ⟨t, ht, htc⟩ := Option.bind_eq_some_iff.1 hc
    rw [owed_of_caller ht htc]
    rfl

end Profile

/-! ## Facts about every turn -/

section Turn

variable {src : Option Event} {a b : Profile}

theorem Turn.constant (h : Turn src a b) :
    b.self = a.self ∧ b.voters = a.voters ∧ b.closed = a.closed := by
  cases h <;> exact ⟨rfl, rfl, rfl⟩

theorem Turns.constant (h : Turns src a b) :
    b.self = a.self ∧ b.voters = a.voters ∧ b.closed = a.closed := by
  refine h.induct (P := fun p => p.self = a.self ∧ p.voters = a.voters ∧ p.closed = a.closed)
    ?_ ⟨rfl, rfl, rfl⟩
  rintro x y ⟨hself, hvoters, hclosed⟩ hturn
  obtain ⟨hself', hvoters', hclosed'⟩ := hturn.constant
  exact ⟨hself'.trans hself, hvoters'.trans hvoters, hclosed'.trans hclosed⟩

theorem Turn.term_le (h : Turn src a b) : a.hard.term ≤ b.hard.term := by
  cases h with
  | follow h _ hterm => exact hterm
  | yield t l hterm _ =>
    show _ ≤ (a.adopt t).hard.term
    rw [Profile.term_adopt hterm]
    exact hterm
  | stand t _ hterm => exact Nat.le_succ_of_le hterm
  | _ => exact Nat.le_refl _

/-- What waits to be handled again is a request. -/
theorem Turn.replays (h : Turn src a b) (ha : ∀ x, .replay x ∈ a.queue → x.IsRequest) :
    ∀ x, .replay x ∈ b.queue → x.IsRequest := by
  have hrest : ∀ {e : RoleEvent} {rest : List RoleEvent}, a.queue = e :: rest →
      ∀ x, .replay x ∈ rest → x.IsRequest := by
    intro e rest hqueue x hx
    apply ha
    rw [hqueue]
    exact List.mem_cons_of_mem _ hx
  cases h with
  | queue e _ hreplay =>
    intro x hx
    rcases List.mem_append.1 hx with hx | hx
    · exact ha x hx
    · exact (hreplay x (List.mem_singleton.1 hx).symm).2
  | yield t l =>
    intro x hx
    rcases List.mem_append.1 hx with hx | hx
    · exact ha x hx
    · cases List.mem_singleton.1 hx
  | take e rest hqueue => exact hrest hqueue
  | settle l rest hqueue => exact hrest hqueue
  | _ => exact ha

theorem Turns.replays (h : Turns src a b) (ha : ∀ x, .replay x ∈ a.queue → x.IsRequest) :
    ∀ x, .replay x ∈ b.queue → x.IsRequest :=
  h.induct (P := fun p => ∀ x, .replay x ∈ p.queue → x.IsRequest)
    (fun _ _ hp hturn => hturn.replays hp) ha

end Turn

namespace Node

variable {src : Option Event} {o : Profile} {α β : Type} {n m : Node} {x : Action Node α}
  {Q Q' : α → Node → Prop} {R : β → Node → Prop}

/-! ## Putting runs together -/

/-- A run from a node that was reached from `o` in turns goes on in turns, and ends in `Q` if it
succeeds. -/
def Takes (src : Option Event) (o : Profile) (x : Action Node α) (n : Node)
    (Q : α → Node → Prop) : Prop :=
  Turns src o n.profile →
    x.Ensures n (fun a m => Turns src o m.profile ∧ Q a m) fun f m => Halts src o f m.profile

/-- A run that goes on in turns. -/
abbrev Makes (src : Option Event) (o : Profile) (x : Action Node α) (n : Node) : Prop :=
  Takes src o x n fun _ _ => True

/-- A run that leaves the profile as it is, whatever comes of it. -/
def Calm (x : Action Node α) (n : Node) : Prop :=
  x.Ensures n (fun _ m => m.profile = n.profile) fun _ m => m.profile = n.profile

/-- A run that cannot fail and leaves the profile as it is. -/
def Idle (x : Action Node α) (n : Node) : Prop :=
  x.Ensures n (fun _ m => m.profile = n.profile) fun _ _ => False

theorem Idle.calm (h : Idle x n) : Calm x n := h.mono_of_sure fun _ _ hm => hm

/-- Turns are something that a run keeps to. -/
theorem takes_iff_keeps : Takes src o x n Q ↔
    x.Keeps (fun m => Turns src o m.profile) (fun f m => Halts src o f m.profile) n Q := Iff.rfl

theorem Takes.bind {f : α → Action Node β} (h : Takes src o x n Q)
    (hf : ∀ a m, Q a m → Takes src o (f a) m R) : Takes src o (x >>= f) n R :=
  Action.Keeps.bind (takes_iff_keeps.1 h) hf

theorem Takes.weaken (h : Takes src o x n Q) (hQ : ∀ a m, Q a m → Q' a m) :
    Takes src o x n Q' := Action.Keeps.weaken (takes_iff_keeps.1 h) hQ

theorem Calm.bind {f : α → Action Node β} (h : Calm x n)
    (hf : ∀ a m, m.profile = n.profile → Calm (f a) m) : Calm (x >>= f) n := by
  apply Action.Ensures.bind h
  intro a m hm
  refine (hf a m hm).mono ?_ ?_
  · exact fun _ _ hk => hk.trans hm
  · exact fun _ _ hk => hk.trans hm

theorem Calm.takes (h : Calm x n) : Takes src o x n fun _ m => m.profile = n.profile := by
  intro hn
  apply Action.Ensures.mono h
  · intro _ m hm
    exact ⟨hm ▸ hn, hm⟩
  · intro f m hm
    exact (hm ▸ hn : Turns src o m.profile).halts

/-- A part of a run that leaves the profile as it is is passed over. -/
theorem Calm.takes_bind {f : α → Action Node β} (h : Calm x n)
    (hf : ∀ a m, m.profile = n.profile → Takes src o (f a) m R) : Takes src o (x >>= f) n R :=
  h.takes.bind hf

theorem Idle.takes_bind {f : α → Action Node β} (h : Idle x n)
    (hf : ∀ a m, m.profile = n.profile → Takes src o (f a) m R) : Takes src o (x >>= f) n R :=
  h.calm.takes_bind hf

theorem Idle.ensures_bind {f : α → Action Node β} {E : Failure Error → Node → Prop} (h : Idle x n)
    (hf : ∀ a m, m.profile = n.profile → (f a).Ensures m R E) : (x >>= f).Ensures n R E :=
  Action.Ensures.bind_of_sure h hf

theorem Takes.makes (h : Takes src o x n Q) : Makes src o x n := h.weaken fun _ _ _ => trivial

theorem Calm.makes (h : Calm x n) : Makes src o x n := h.takes.makes

theorem Idle.makes (h : Idle x n) : Makes src o x n := h.calm.makes

theorem makes_pure {a : α} : Makes src o (pure a) n := fun hn => ⟨hn, trivial⟩

theorem calm_pure {a : α} : Calm (pure a) n := rfl

theorem calm_get_bind {f : Node → Action Node α} (h : Calm (f n) n) : Calm (get >>= f) n := h

theorem calm_ite {c : Prop} [Decidable c] {y z : Action Node α} (hy : Calm y n) (hz : Calm z n) :
    Calm (if c then y else z) n := by
  split
  · exact hy
  · exact hz

theorem calm_fail {e : Error} : Calm (Action.fail e : Action Node α) n := Action.ensures_fail rfl

theorem calm_ofExcept {y : Except (Failure Error) α} : Calm (Action.ofExcept y) n := by
  cases y <;> exact rfl

theorem calm_ofResult {y : Except Error α} : Calm (Action.ofResult y) n := by
  cases y <;> exact rfl

theorem takes_get_bind {f : Node → Action Node α} (h : Takes src o (f n) n Q) :
    Takes src o (get >>= f) n Q := h

theorem takes_ite {c : Prop} [Decidable c] {y z : Action Node α}
    (hy : c → Takes src o y n Q) (hz : ¬ c → Takes src o z n Q) :
    Takes src o (if c then y else z) n Q :=
  Action.keeps_ite (fun hc => takes_iff_keeps.1 (hy hc)) fun hc => takes_iff_keeps.1 (hz hc)

theorem takes_ite_bind {c : Prop} [Decidable c] {y : Action Node PUnit} {f : PUnit → Action Node β}
    (h : Takes src o ((if c then y else pure ⟨⟩) >>= f) n R) :
    Takes src o (if c then y >>= f else f ⟨⟩) n R := by
  rwa [Action.ite_bind]

/-- One turn, made by an action that cannot fail. -/
theorem takes_turn {p : Profile} (h : x.Ensures n (fun _ m => m.profile = p) fun _ _ => False)
    (hturn : Turn src n.profile p) : Takes src o x n fun _ m => m.profile = p := by
  intro hn
  refine h.mono_of_sure ?_
  intro _ m hm
  exact ⟨hm ▸ hn.step hturn, hm⟩

/-- Turns that end in a failure of storage stop the node, which has said nothing new. -/
theorem takes_of_stop {p : Profile}
    (h : x.Ensures n (fun _ m => m.profile = p)
      fun f m => f.Stops ∧ m.profile.notes = n.profile.notes)
    (hturns : Turns src n.profile p) : Takes src o x n fun _ m => m.profile = p := by
  intro hn
  refine h.mono ?_ ?_
  · intro _ m hm
    exact ⟨hm ▸ hn.trans hturns, hm⟩
  · rintro f m ⟨hf, hnotes⟩
    exact hn.halts_of_stop hnotes hf

/-! ## Small actions -/

theorem perform_profile (e : Effect) (n : Node) :
    (perform e).Ensures n
      (fun _ m => m.profile
        = { n.profile with notes := n.profile.notes ++ (n.departure e).note?.toList })
      fun _ _ => False := by
  refine Action.ensures_modify ?_
  simp only [profile, List.filterMap_append]
  cases h : (n.departure e).note? <;> simp [h]

theorem perform_idle {e : Effect} (h : (n.departure e).note? = none) : Idle (perform e) n := by
  apply (perform_profile e n).weaken
  intro _ m hm
  rw [hm, h]
  exact congrArg (fun notes => ({ n.profile with notes } : Profile)) (List.append_nil _)

theorem answerTransfer_profile (caller : Caller) (r : Except Error Unit) (n : Node) :
    (answer caller (.transfer r)).Ensures n
      (fun _ m => m.profile = { n.profile with
        notes := n.profile.notes ++ [.tells caller r n.profile.hard.term] })
      fun _ _ => False := perform_profile _ n

theorem answerVote_idle (caller : Caller) (r : Except Error VoteResponse) :
    Idle (answer caller (.vote r)) n := perform_idle rfl

theorem answerAppend_idle (caller : Caller) (r : Except Error AppendResponse) :
    Idle (answer caller (.append r)) n := perform_idle rfl

theorem answerTimeoutNow_idle (caller : Caller) (accepted : Bool) :
    Idle (answerTimeoutNow caller accepted) n := Action.ensures_get_bind (perform_idle rfl)

theorem answerClient_idle (caller : Caller) (r : ClientResponse) :
    Idle (answer caller (.client r)) n := perform_idle rfl

theorem idle_modify {g : Node → Node} (h : (g n).profile = n.profile) : Idle (modify g) n := h

theorem post_restart (timer : ElectionTimer) (now : Nat) (r : Role) :
    (r.restart timer now).post = r.post := by
  cases r <;> rfl

theorem resetTimer_idle (n : Node) : Idle resetTimer n := by
  refine (resetTimer_leaves n).weaken ?_
  rintro _ _ ⟨timer, seed, rfl⟩
  simp only [profile, post_restart]

theorem count_idle (f : Counters → Counters) (n : Node) : Idle (count f) n := rfl

theorem modifyLeader_profile {f : LeaderState → LeaderState} {l : LeaderState}
    (hrole : n.role = .leader l) :
    (modifyLeader f).Ensures n
      (fun _ m => m.profile = { n.profile with post := .leader (f l).transfer })
      fun _ _ => False := by
  refine (modifyLeader_leaves hrole).weaken ?_
  rintro _ _ rfl
  rfl

/-- What a leader changes in its bookkeeping alone. -/
theorem modifyLeader_idle {f : LeaderState → LeaderState} (hf : ∀ l, (f l).transfer = l.transfer) :
    Idle (modifyLeader f) n := by
  refine idle_modify ?_
  cases h : n.role with
  | follower | candidate => rfl
  | leader l => simp only [profile, Role.post, h, hf l]

/-- Work on the log is none of an office's business. -/
theorem tryLog_calm (y : Action Log α) : Calm (tryLog y) n := by
  refine (tryLog_leaves (Action.ensures_true y n.log)).mono ?_ ?_
  · rintro r _ ⟨l, w, rfl, -⟩
    rfl
  · rintro f _ ⟨l, rfl, -⟩
    rfl

theorem setHard_profile (h : HardState) (n : Node) :
    (setHard h).Ensures n (fun _ m => m.profile = { n.profile with hard := h })
      fun f m => f.Stops ∧ m.profile.notes = n.profile.notes := by
  refine (setHard_leaves h n).mono ?_ ?_
  · rintro _ _ ⟨savesLeft, rfl⟩
    rfl
  · rintro f _ ⟨hf, rfl⟩
    exact ⟨stops_of_persistence hf, rfl⟩

theorem adoptTerm_profile (t : Nat) (n : Node) :
    (adoptTerm t).Ensures n (fun _ m => m.profile = n.profile.adopt t)
      fun f m => f.Stops ∧ m.profile.notes = n.profile.notes := by
  refine (adoptTerm_leaves t n).mono ?_ ?_
  · rintro _ m (⟨hle, rfl⟩ | ⟨hlt, savesLeft, rfl⟩)
    · exact (Profile.adopt_of_le (p := m.profile) hle).symm
    · exact (Profile.adopt_of_lt (p := n.profile) hlt).symm
  · rintro f _ ⟨hf, -, rfl⟩
    exact ⟨stops_of_persistence hf, rfl⟩

theorem emit_profile {e : RoleEvent} (hopen : n.profile.closed = false) :
    (emit e).Ensures n
      (fun _ m => m.profile = { n.profile with queue := n.profile.queue ++ [e] })
      fun _ _ => False := by
  refine (emit_leaves_of_open hopen).weaken ?_
  rintro _ _ rfl
  rfl

theorem setHard_takes {h : HardState} (hpost : n.profile.post = .follower)
    (hterm : n.profile.hard.term ≤ h.term) :
    Takes src o (setHard h) n fun _ m => m.profile = { n.profile with hard := h } :=
  takes_of_stop (setHard_profile h n) (Turn.follow h hpost hterm).turns

theorem adoptTerm_takes {t : Nat} (hpost : n.profile.post = .follower) :
    Takes src o (adoptTerm t) n fun _ m => m.profile = n.profile.adopt t := by
  refine takes_of_stop (adoptTerm_profile t n) ?_
  rcases Nat.lt_or_ge n.profile.hard.term t with hlt | hge
  · rw [Profile.adopt_of_lt hlt]
    exact (Turn.follow ⟨t, none⟩ hpost (Nat.le_of_lt hlt)).turns
  · rw [Profile.adopt_of_le hge]
    exact Turns.refl _

theorem emit_takes (e : RoleEvent) (hopen : n.profile.closed = false) (hstays : stepsDown e = false)
    (hreplay : ∀ y, e = .replay y → src = some y ∧ y.IsRequest) :
    Takes src o (emit e) n fun _ m =>
      m.profile = { n.profile with queue := n.profile.queue ++ [e] } :=
  takes_turn (emit_profile hopen) (Turn.queue e hstays hreplay)

/-- A term is entered, and the node asks itself to step down. -/
theorem yield_profile {t : Nat} {l : Option NodeId} (hopen : n.profile.closed = false) :
    (adoptTerm t >>= fun _ => emit (.becomeFollower l)).Ensures n
      (fun _ m => m.profile
        = { n.profile.adopt t with queue := n.profile.queue ++ [.becomeFollower l] })
      fun f m => f.Stops ∧ m.profile.notes = n.profile.notes := by
  refine (adoptTerm_profile t n).bind ?_
  intro _ m hm
  refine (emit_profile (by rw [hm]; exact hopen)).mono_of_sure fun _ k hk => ?_
  rw [hk, hm]
  rfl

theorem yield_takes {t : Nat} {l : Option NodeId} (hopen : n.profile.closed = false)
    (hterm : n.profile.hard.term ≤ t)
    (hleader : ∀ x, n.profile.post = .leader x → n.profile.hard.term < t) :
    Takes src o (adoptTerm t >>= fun _ => emit (.becomeFollower l)) n fun _ m =>
      m.profile = { n.profile.adopt t with queue := n.profile.queue ++ [.becomeFollower l] } :=
  takes_of_stop (yield_profile hopen) (Turn.yield t l hterm hleader).turns

/-- A term is entered, and a request is kept until the node has stepped down. -/
theorem stepDownAndReplay_makes {t : Nat} {l : Option NodeId} {e : Event} (hsrc : src = some e)
    (he : e.IsRequest) (hopen : n.profile.closed = false) (hterm : n.profile.hard.term ≤ t)
    (hleader : ∀ x, n.profile.post = .leader x → n.profile.hard.term < t) :
    Makes src o (adoptTerm t >>= fun _ => stepDownAndReplay l e) n := by
  rw [adoptTerm_stepDownAndReplay]
  apply (yield_takes hopen hterm hleader).bind
  intro _ m hm
  have hreplay : ∀ y, RoleEvent.replay e = .replay y → src = some y ∧ y.IsRequest := by
    rintro _ ⟨⟩
    exact ⟨hsrc, he⟩
  exact (emit_takes (.replay e) (by rw [hm]; exact hopen) rfl hreplay).makes

/-- The commit index is raised, of which the loop is told. -/
theorem advanceCommit_profile (i : Nat) (hopen : n.profile.closed = false) :
    (advanceCommit i).Ensures n
      (fun _ m => m.profile = n.profile
        ∨ m.profile = { n.profile with queue := n.profile.queue ++ [.newCommit i] })
      fun _ _ => False := by
  refine (advanceCommit_leaves_of_open hopen).weaken ?_
  rintro _ _ (⟨-, rfl⟩ | ⟨-, rfl⟩)
  · exact Or.inl rfl
  · exact Or.inr rfl

theorem advanceCommit_takes (i : Nat) (hopen : n.profile.closed = false) :
    Takes src o (advanceCommit i) n fun _ m =>
      m.profile.closed = false ∧ m.profile.retires = n.profile.retires := by
  intro hn
  refine (advanceCommit_profile i hopen).mono_of_sure ?_
  rintro _ m (hm | hm)
  · show Turns src o m.profile ∧ m.profile.closed = false ∧ m.profile.retires = n.profile.retires
    rw [hm]
    exact ⟨hn, hopen, rfl⟩
  · show Turns src o m.profile ∧ m.profile.closed = false ∧ m.profile.retires = n.profile.retires
    rw [hm, Profile.retires_queue]
    exact ⟨hn.step (Turn.queue _ rfl nofun), hopen, Bool.or_false _⟩

end Node

end Raft
