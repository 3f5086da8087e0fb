import Raft.Proofs.Network.Exchange
import Raft.Proofs.Network.Sorted

/-!
# The books of the members of a cluster

Between two acts the books of every member are right about the letters whose outcome it has still to
learn. When a member has its turn, only its own books change, and only it can reject something: so
what the others know of it stays true, as it then holds what they count it for.

* `Exchange.Refused`: a peer rejected an append request, and its sender has not learned of it.
* `Exchange.Kept members x`: what holds between two acts.
* `Exchange.books_of_turned`: the turn of one member.
* `Exchange.agrees_outcome`: what comes of a request agrees with the log and the books of its sender.
* `Exchange.kept_run` is the result.
-/

namespace Raft.Exchange

open Network (Act Letter Reply Site)
open Protocol (Record)

/-- A peer rejected an append request whose outcome the sender has still to learn. -/
def Refused (x : Exchange) (p q : NodeId) (r : AppendRequest) (hint : ConflictHint) : Prop :=
  ∃ y ∈ x.net.replies, ∃ k z, x.origin y.caller = some k ∧ k ∉ x.concluded
    ∧ x.net.sent[k]? = some ⟨p, q, .append r⟩ ∧ y.answer = .append (.ok z)
    ∧ z.conflict = some hint

/-- The books of a member are right; without a server, nothing that is open is of a term after the
one that is stored. -/
def SiteBooks (c : NodeId → Nat → Nat) (R : NodeId → AppendRequest → ConflictHint → Prop) :
    Site → Prop
  | .up s => s.Books c R
  | .down r => ∀ q u, 0 < c q u → u ≤ (r.stored.getD {}).term

/-- Callers stand for the letters that they are said to stand for. -/
structure Tracked (x : Exchange) : Prop where
  letters : ∀ c l, x.net.callers[c]? = some (.letter l) →
    ∃ k, x.origin c = some k ∧ x.net.sent[k]? = some l
  origins : ∀ c k, x.origin c = some k →
    ∃ l, x.net.callers[c]? = some (.letter l) ∧ x.net.sent[k]? = some l
  concluded : ∀ k ∈ x.concluded, k < x.net.sent.length
  refusers : ∀ y ∈ x.net.replies, ∀ z hint, y.answer = .append (.ok z) → z.conflict = some hint →
    ∃ l, x.net.callers[y.caller]? = some (.letter l)

/-- What holds between two acts. -/
structure Kept (members : List NodeId) (x : Exchange) : Prop where
  settled : x.net.Settled
  sound : ∃ r, Network.Sound members x.net r
  tracked : x.Tracked
  books : ∀ p, SiteBooks (x.awaiting p) (x.Refused p) (x.net.site p)

variable {members : List NodeId} {cluster : List Member} {x x' : Exchange} {p q : NodeId}
  {t k : Nat} {l : Letter} {a : Act} {s s' : Server} {es : List Effect} {B : Site} {record : Record}
  {r : AppendRequest} {hint : ConflictHint}

/-- A rejected request is open. -/
theorem Refused.awaiting_pos (h : x.Refused p q r hint) : 0 < x.awaiting p q r.term := by
  obtain ⟨y, -, k, z, -, hopen, hk, -, -⟩ := h
  refine List.countP_pos_iff.2 ⟨(⟨p, q, .append r⟩, k), ?_, ?_⟩
  · rw [List.mk_mem_zipIdx_iff_getElem?]
    exact hk
  · simp [Letter.offers, Effect.offers, hopen]

/-! ## Who rejects what -/

theorem mem_peers (h : Network.Sound members x.net record) (hs : x.net.site p = .up s)
    (hrun : s.isRunning = true) : q ∈ s.node.tenure.peers ↔ q ∈ members ∧ q ≠ p := by
  have hfits := (h.placed hs hrun).fits
  refine Node.mem_peers.trans ?_
  unfold Node.Outline.IsPeer
  rw [hfits.members, hfits.self]
  rfl

/-- A member that rejected a request of a leader in its term holds what the leader counts it for. -/
theorem admits_of_rejects (h : Network.Sound members x.net record) (hs : x.net.site p = .up s)
    (hrun : s.isRunning = true) (hstays : s.node.tenure.retires = false) {y : Progress}
    (hseat : s.node.tenure.seat = .leader y) {m : Nat} (hm : y.matched.lookup q = some m)
    (hs' : x.net.site q = .up s') (hterm : s'.node.hard.term ≤ r.term)
    (hr : r.term = s.node.hard.term) (hrejects : Rejects s'.node.log r hint) :
    Admits s.node.log m r hint := by
  refine ⟨s'.node.log, ?_, hrejects, ?_⟩
  · have hpositioned := h.positioned q
    have hrising := h.rising q
    rw [Network.log_of_up hs'] at hpositioned hrising
    exact ⟨hpositioned, hrising⟩
  · obtain ⟨l, hrole, rfl⟩ := Node.exists_leader_of_seat hseat
    have hledger := (h.leading hs hrun hstays hrole).2
    have hheld := ((h.placed hs hrun).fits.tallied l.matched (Node.stance_of_leader hrole)
      hstays).lookup_le (q := q)
    have hm : l.matched.lookup q = some m := hm
    rw [hm] at hheld
    -- the peer is not in a later term, as it took up the request
    have hreached : x.net.term q ≤ s.node.hard.term := by
      unfold Network.term
      rw [hs']
      exact hr ▸ hterm
    have htake := h.take_isPrefix hreached hheld
    have hledger : record.ledger s.node.hard.term = s.node.log.entries := by
      rw [← Network.log_of_up hs]
      exact hledger
    rwa [hledger, Network.log_of_up hs'] at htake

/-! ## A turn -/

theorem SiteBooks.congr {c c' : NodeId → Nat → Nat}
    {R R' : NodeId → AppendRequest → ConflictHint → Prop} {A : Site} (h : SiteBooks c R A)
    (hc : ∀ q u, c' q u = c q u)
    (hR : ∀ q r hint, R' q r hint → R q r hint ∨ ∀ s y m, A = .up s → s.isRunning = true →
      s.node.tenure.retires = false → s.node.tenure.seat = .leader y →
      y.matched.lookup q = some m → r.term = s.node.hard.term → Admits s.node.log m r hint) :
    SiteBooks c' R' A := by
  have hsame : c' = c := funext fun q => funext fun u => hc q u
  subst hsame
  cases A with
  | down => exact h
  | up s =>
    refine ⟨fun hrun => ?_, h.past⟩
    have hright := h.right hrun
    refine ⟨hright.kept, hright.past, hright.fresh, hright.awaits, fun y hy hstays q hq => ?_⟩
    obtain ⟨m, v, hold⟩ := hright.tracks y hy hstays q hq
    refine ⟨m, v, hold.matched, hold.next, hold.lt, hold.le, ?_⟩
    rintro r hint ⟨hr, hterm⟩
    rcases hR q r hint hr with hr | hadmits
    · exact hold.admits r hint ⟨hr, hterm⟩
    · exact hadmits s y m rfl hrun hstays hy hold.matched hterm

/-- What a member has to have done that rejects a request in its turn. -/
def Rejecting (x : Exchange) (p : NodeId) (es : List Effect) (n : Network) : Prop :=
  ∀ caller z hint, .answer caller (.append (.ok z)) ∈ es → z.conflict = some hint →
    ∃ s source r, x.net.site p = .up s ∧ n.callers[caller]? = some (.letter ⟨source, p, .append r⟩)
      ∧ s.node.hard.term ≤ r.term ∧ Rejects s.node.log r hint

/-- Rejections are old, or the member that has its turn rejects a request of another one. -/
theorem refused_cases (hx : x.Tracked) (hx' : x'.Tracked)
    (hsound : ∃ r, Network.Sound members x'.net r) (hturned : x.net.Turned p es B x'.net)
    (hconcluded : x'.concluded = x.concluded)
    (horigin : ∀ c < x.net.callers.length, x'.origin c = x.origin c)
    (hrejecting : x.Rejecting p es x'.net) {p' : NodeId} (h : x'.Refused p' q r hint) :
    x.Refused p' q r hint ∨ q = p ∧ p' ≠ p ∧ ∃ s, x.net.site p = .up s
      ∧ s.node.hard.term ≤ r.term ∧ Rejects s.node.log r hint := by
  obtain ⟨y, hy, k, z, hk, hopen, hsent, hanswer, hhint⟩ := h
  rw [hturned.replies] at hy
  rcases List.mem_append.1 hy with hold | hnew
  · -- an old reply: its caller stands for the letter that it stood for
    left
    obtain ⟨l, hl⟩ := hx.refusers y hold z hint hanswer hhint
    rw [horigin _ (List.getElem?_eq_some_iff.1 hl).1] at hk
    obtain ⟨l', -, hl'⟩ := hx.origins _ k hk
    refine ⟨y, hold, k, z, hk, hconcluded ▸ hopen, ?_, hanswer, hhint⟩
    rw [hturned.sent, List.getElem?_append_left (List.getElem?_eq_some_iff.1 hl').1] at hsent
    exact hsent
  · -- a new reply: it comes from the member whose turn it is
    right
    obtain ⟨-, hmem⟩ := Network.effect_of_reply hnew
    rw [hanswer] at hmem
    obtain ⟨s, source, r', hs, hcaller, hterm, hrejects⟩ := hrejecting _ z hint hmem hhint
    obtain ⟨l, hl, hl'⟩ := hx'.origins _ k hk
    rw [hcaller] at hl
    obtain rfl := Network.Call.letter.inj (Option.some.inj hl)
    rw [hsent] at hl'
    obtain ⟨rfl, rfl, hrequest⟩ := Letter.mk.inj (Option.some.inj hl')
    obtain rfl := Request.append.inj hrequest
    obtain ⟨record, hsound⟩ := hsound
    have hne := (hsound.callers _ (List.mem_of_getElem? hcaller)).2.1
    exact ⟨rfl, Ne.symm hne, s, hs, hterm, hrejects⟩

/-- The books of all members are right after a turn if those of the member are that has it. -/
theorem books_of_turned (hx : x.Tracked) (hx' : x'.Tracked)
    (hsound : ∃ r, Network.Sound members x.net r) (hsound' : ∃ r, Network.Sound members x'.net r)
    (hbooks : ∀ p', p' ≠ p → SiteBooks (x.awaiting p') (x.Refused p') (x.net.site p'))
    (hturned : x.net.Turned p es B x'.net) (hconcluded : x'.concluded = x.concluded)
    (horigin : ∀ c < x.net.callers.length, x'.origin c = x.origin c)
    (hrejecting : x.Rejecting p es x'.net)
    (hB : SiteBooks (fun q u => x.awaiting p q u + es.countP (·.offers q u)) (x.Refused p) B) :
    ∀ p', SiteBooks (x'.awaiting p') (x'.Refused p') (x'.net.site p') := by
  intro p'
  have hawaiting : ∀ q u, x'.awaiting p' q u
      = x.awaiting p' q u + if p' = p then es.countP (·.offers q u) else 0 := by
    intro q u
    rw [awaiting_send hx.concluded hturned.sent hconcluded, countP_lettersOf]
  by_cases hp : p' = p
  · subst hp
    rw [hturned.site_self]
    refine hB.congr (fun q u => ?_) fun q r hint hr => Or.inl ?_
    · rw [hawaiting, if_pos rfl]
    · rcases refused_cases hx hx' hsound' hturned hconcluded horigin hrejecting hr
        with hold | ⟨-, hne, -⟩
      · exact hold
      · exact absurd rfl hne
  · rw [hturned.site_of_ne hp]
    refine (hbooks p' hp).congr (fun q u => ?_) fun q r hint hr => ?_
    · rw [hawaiting, if_neg hp]
      rfl
    · rcases refused_cases hx hx' hsound' hturned hconcluded horigin hrejecting hr
        with hold | ⟨rfl, -, s', hs', hterm, hrejects⟩
      · exact Or.inl hold
      · -- the member rejected it just now, so that its log bears out the hint
        obtain ⟨record, hsound⟩ := hsound
        exact Or.inr fun s y m hs hrun hstays hseat hm hr =>
          admits_of_rejects hsound hs hrun hstays hseat hm hs' hterm hr hrejects

/-- The books of a member in its turn, if no outcome of an append request comes to it. -/
theorem books_of_turns {c : NodeId → Nat → Nat} {R : NodeId → AppendRequest → ConflictHint → Prop}
    {Takes : Server → Option Event → Prop} {A : Site} (h : A.Turns Takes es B)
    (hA : SiteBooks c R A) (hR : ∀ q r hint, R q r hint → 0 < c q r.term)
    (hsource : ∀ s, A = .up s → s.isRunning = true → ∀ src, Takes s src →
      ∀ q request y, src ≠ some (.appendResult q request y)) :
    SiteBooks (fun q u => c q u + es.countP (·.offers q u)) R B := by
  cases h with
  | does Named h => exact (h.books hA hR (hsource _ rfl)).take
  | falls s => exact fun q u hq => hA.past q u (Nat.lt_of_lt_of_le hq (Nat.le_add_right _ _))
  | @starts r storage settings window now seed s hup hstored hlog =>
    have htenure := (Server.start_tenure hup).2
    constructor
    · intro _
      rw [htenure]
      exact ⟨Nat.le_refl _, fun q u hq => hstored ▸ hA q u hq, nofun, nofun, nofun⟩
    · intro q u hq
      rw [htenure] at hq
      have hsame : s.node.stored = storage.stored := congrArg Tenure.stored htenure
      rw [hsame, hstored]
      exact hA q u hq
  | rests hstored => exact fun q u hq => hstored ▸ hA q u hq

/-! ## Callers -/

/-- Callers stand for their letters after an act. -/
theorem Tracked.advance (h : x.Tracked) (hturned : x.net.Turned p es B x'.net)
    (hcallers : x.net.callers <+: x'.net.callers)
    (hold : ∀ c < x.net.callers.length, x'.origin c = x.origin c)
    (hletters : ∀ c l, x.net.callers.length ≤ c → x'.net.callers[c]? = some (.letter l) →
      ∃ k, x'.origin c = some k ∧ x.net.sent[k]? = some l)
    (horigins : ∀ c k, x'.origin c = some k → x.origin c = some k
      ∨ ∃ l, x'.net.callers[c]? = some (.letter l) ∧ x.net.sent[k]? = some l)
    (hconcluded : ∀ k ∈ x'.concluded, k < x.net.sent.length)
    (hrejecting : x.Rejecting p es x'.net) : x'.Tracked := by
  have hsent : ∀ {k : Nat} {l : Letter}, x.net.sent[k]? = some l → x'.net.sent[k]? = some l := by
    intro k l hk
    rw [hturned.sent, List.getElem?_append_left (List.getElem?_eq_some_iff.1 hk).1]
    exact hk
  have hcalls : ∀ {c : Nat} {y : Network.Call}, x.net.callers[c]? = some y →
      x'.net.callers[c]? = some y := by
    intro c y hc
    obtain ⟨rest, hrest⟩ := hcallers
    rw [← hrest, List.getElem?_append_left (List.getElem?_eq_some_iff.1 hc).1]
    exact hc
  constructor
  · intro c l hl
    -- a caller of before keeps its letter; a new one has that of the act
    rcases Nat.lt_or_ge c x.net.callers.length with hlt | hge
    · have hl' : x.net.callers[c]? = some (.letter l) := by
        rw [List.getElem?_eq_getElem hlt, ← hl]
        exact (hcalls (List.getElem?_eq_getElem hlt)).symm
      obtain ⟨k, hk, hkl⟩ := h.letters c l hl'
      exact ⟨k, (hold c hlt).trans hk, hsent hkl⟩
    · obtain ⟨k, hk, hkl⟩ := hletters c l hge hl
      exact ⟨k, hk, hsent hkl⟩
  · intro c k hk
    rcases horigins c k hk with hk | ⟨l, hl, hkl⟩
    · obtain ⟨l, hl, hkl⟩ := h.origins c k hk
      exact ⟨l, hcalls hl, hsent hkl⟩
    · exact ⟨l, hl, hsent hkl⟩
  · intro k hk
    rw [hturned.sent, List.length_append]
    exact Nat.lt_of_lt_of_le (hconcluded k hk) (Nat.le_add_right _ _)
  · intro y hy z hint hanswer hhint
    rw [hturned.replies] at hy
    rcases List.mem_append.1 hy with hy | hnew
    · obtain ⟨l, hl⟩ := h.refusers y hy z hint hanswer hhint
      exact ⟨l, hcalls hl⟩
    · -- a new rejection answers an append request that was delivered
      obtain ⟨-, hmem⟩ := Network.effect_of_reply hnew
      rw [hanswer] at hmem
      obtain ⟨s, source, r, -, hcaller, -⟩ := hrejecting _ z hint hmem hhint
      exact ⟨_, hcaller⟩

/-- New callers stand for the letter that is delivered, if one is. -/
theorem Tracked.track (h : x.Tracked) (hturned : x.net.Turned p es B (x.net.step cluster a))
    (hrejecting : x.Rejecting p es (x.net.step cluster a)) :
    ({ x with net := x.net.step cluster a, origin := x.track a } : Exchange).Tracked
      ∧ ∀ c < x.net.callers.length, x.track a c = x.origin c := by
  have hcallers := Network.callers_step x.net cluster a
  have hold : ∀ c < x.net.callers.length, x.track a c = x.origin c := by
    intro c hc
    unfold Exchange.track
    split
    · split
      · exact Function.update_of_ne (Nat.ne_of_lt hc) _ _
      · rfl
    · rfl
  refine ⟨h.advance hturned (hcallers ▸ List.prefix_append _ _) hold ?_ ?_ h.concluded hrejecting,
    hold⟩
  · intro c l hc hl
    dsimp only at hl ⊢
    rw [hcallers, List.getElem?_append_right hc] at hl
    obtain ⟨k, rfl, hk⟩ := Act.of_mem_calls (List.mem_of_getElem? hl)
    rw [Act.calls_request hk] at hl
    have hlast := (List.getElem?_eq_some_iff.1 hl).1
    -- the act takes one caller, so it is the next one
    have hc : c = x.net.nextCaller := by
      rw [List.length_singleton] at hlast
      unfold Network.nextCaller
      omega
    refine ⟨k, ?_, hk⟩
    unfold Exchange.track
    dsimp only
    rw [if_pos (List.getElem?_eq_some_iff.1 hk).1, hc]
    exact Function.update_self _ _ _
  · intro c k hk
    dsimp only at hk ⊢
    unfold Exchange.track at hk
    split at hk
    · rename_i k'
      split at hk
      · rename_i hlt
        by_cases hc : c = x.net.nextCaller
        · rw [hc, Function.update_self] at hk
          obtain rfl := Option.some.inj hk
          refine Or.inr ⟨x.net.sent[k'], ?_, List.getElem?_eq_getElem hlt⟩
          rw [hcallers, hc, Act.calls_request (List.getElem?_eq_getElem hlt)]
          exact List.getElem?_concat_length
        · rw [Function.update_of_ne hc] at hk
          exact Or.inl hk
      · exact Or.inl hk
    · exact Or.inl hk

/-! ## What an act brings -/

/-- An event loop takes up no outcome of an append request, if the act does not bring one. -/
theorem Kept.source (h : Kept members x) (hnone : x.outcome? a = none)
    (hs : x.net.site p = .up s) (hrun : s.isRunning = true) {src : Option Event}
    (hsrc : a.Takes x.net p s src) : ∀ q request y, src ≠ some (.appendResult q request y) := by
  rintro q request y rfl
  rcases hsrc with ⟨e, he, hbrings, -⟩ | ⟨e, he, hrole⟩ | hx
  · obtain rfl := Option.some.inj he
    cases a with
    | request k =>
      obtain ⟨l, -, -, heq⟩ := hbrings
      cases hrequest : l.request <;> rw [hrequest] at heq <;> cases heq
    | result k =>
      obtain ⟨w, l, z, hw, hcaller, hz, -, -⟩ := hbrings
      obtain ⟨j, hj, -⟩ := h.tracked.letters _ l hcaller
      unfold outcome? at hnone
      dsimp only at hnone
      rw [hw] at hnone
      dsimp only at hnone
      rw [hz, if_pos Option.isSome_some, hj] at hnone
      cases hnone
    | failure k e =>
      obtain ⟨l, hl, -, -⟩ := hbrings
      unfold outcome? at hnone
      dsimp only at hnone
      rw [if_pos (List.getElem?_eq_some_iff.1 hl).1] at hnone
      cases hnone
    | propose | transfer => cases hbrings.2
    | _ => exact hbrings
  · cases e with
    | replay e =>
      obtain rfl := Option.some.inj hrole
      exact ((h.settled.fits p s hs hrun).awaits.isRequest he).elim
    | _ => cases hrole
  · cases hx

theorem not_isRequest_resultEvent (request : Request) (peer : NodeId)
    (res : Except Error Response) : ¬ (request.resultEvent peer res).IsRequest := by
  cases request <;> rcases res with e | (z | z | z) <;> exact id

/-- An append request that is taken up came with a letter, now or before. -/
theorem Kept.asked (h : Kept members x) (hs : x.net.site p = .up s) (hrun : s.isRunning = true)
    {caller : Caller} (hsrc : a.Takes x.net p s (some (.appendRequest r caller))) :
    ∃ source, (x.net.step cluster a).callers[caller]?
      = some (.letter ⟨source, p, .append r⟩) := by
  rw [Network.callers_step x.net cluster a]
  rcases hsrc with ⟨e, he, hbrings, -⟩ | ⟨e, he, hrole⟩ | hx
  · obtain rfl := Option.some.inj he
    -- only the delivery of a letter brings a request from outside
    cases a with
    | request k =>
      obtain ⟨l, hl, rfl, heq⟩ := hbrings
      obtain ⟨source, target, request⟩ := l
      cases request with
      | vote | timeoutNow => cases heq
      | append r' =>
        obtain ⟨rfl, rfl⟩ := Event.appendRequest.inj heq
        refine ⟨source, ?_⟩
        rw [Act.calls_request hl]
        exact List.getElem?_concat_length
    | result k =>
      obtain ⟨-, l, z, -, -, -, -, heq⟩ := hbrings
      refine absurd ?_ (not_isRequest_resultEvent l.request l.target z)
      rw [← heq]
      trivial
    | failure k e =>
      obtain ⟨l, -, -, heq⟩ := hbrings
      refine absurd ?_ (not_isRequest_resultEvent l.request l.target (.error e))
      rw [← heq]
      trivial
    | propose | transfer => cases hbrings.2
    | _ => exact hbrings.elim
  · cases e with
    | replay e =>
      obtain rfl := Option.some.inj hrole
      obtain ⟨record, hsound⟩ := h.sound
      -- what waits to be handled again came with a letter of its own
      have hqueue : Node.Outline.Orderly _ p _ s.node.queue := (hsound.placed hs hrun).fits.queue
      obtain ⟨source, hcaller⟩ := (hqueue.knows he).1
      have hcaller : x.net.callers[caller]? = some (.letter ⟨source, p, .append r⟩) := hcaller
      refine ⟨source, ?_⟩
      rw [List.getElem?_append_left (List.getElem?_eq_some_iff.1 hcaller).1]
      exact hcaller
    | _ => cases hrole
  · cases hx

/-- Whoever rejects a request in its turn was asked by another member. -/
theorem Kept.rejecting (h : Kept members x) (hturns : (x.net.site p).Turns (a.Takes x.net p) es B) :
    x.Rejecting p es (x.net.step cluster a) := by
  intro caller z hint hmem hhint
  generalize hA : x.net.site p = A at hturns
  cases hturns with
  | falls | starts | rests => cases hmem
  | @does s t Named hdoes =>
    obtain ⟨r, hrun, hsrc, hterm, hrejects⟩ :=
      hdoes.conflicts (h.settled.said_eq_nil hA) hmem hhint
    obtain ⟨source, hcaller⟩ := h.asked hA hrun hsrc
    exact ⟨s, source, r, rfl, hcaller, hterm, hrejects⟩

/-! ## Outcomes -/

/-- What an act brings back: an answer to a letter, or that there is none. -/
theorem exists_outcome (cluster : List Member) (h : x.Tracked) (hk : x.outcome? a = some k)
    (hl : x.net.sent[k]? = some l) :
    ∃ res, x.net.step cluster a = x.net.inform l res
      ∧ a.Brings x.net l.source (l.request.resultEvent l.target res)
      ∧ ∀ z, res = .ok (.append z) → ∃ y ∈ x.net.replies, x.origin y.caller = some k
        ∧ x.net.callers[y.caller]? = some (.letter l) ∧ y.answer = .append (.ok z) := by
  unfold outcome? at hk
  split at hk
  · rename_i j
    split at hk
    · rename_i y hy
      split at hk
      · rename_i hanswer
        obtain ⟨res, hres⟩ := Option.isSome_iff_exists.1 hanswer
        obtain ⟨l', hcaller, hl'⟩ := h.origins _ k hk
        rw [hl] at hl'
        obtain rfl := Option.some.inj hl'
        refine ⟨res, ?_, ⟨y, l, res, hy, hcaller, hres, rfl, rfl⟩,
          fun z hz => ⟨y, List.mem_of_getElem? hy, hk, hcaller, ?_⟩⟩
        · rw [Network.step_result hy]
          unfold Network.pass
          rw [hcaller, hres]
        · rw [hz] at hres
          exact Network.Sound.eq_append_of_response? hres
      · cases hk
    · cases hk
  · rename_i k' e
    split at hk
    · obtain rfl := Option.some.inj hk
      exact ⟨.error e, Network.step_failure hl, ⟨l, hl, rfl, rfl⟩, nofun⟩
    · cases hk
  · cases hk

theorem calls_of_outcome (hk : x.outcome? a = some k) : a.calls x.net = [] := by
  cases a with
  | result | failure => rfl
  | _ => cases hk

theorem eq_append_of_resultEvent {request : Request} {peer : NodeId} {m : AppendMeta}
    {res : Except Error Response} {y : Except Error AppendResponse}
    (h : request.resultEvent peer res = .appendResult q m y) :
    ∃ r, request = .append r ∧ q = peer ∧ m = r.meta
      ∧ ∀ z, y = .ok z → res = .ok (.append z) := by
  unfold Request.resultEvent at h
  cases request with
  | vote r => rcases res with e | (z | z | z) <;> cases h
  | timeoutNow r => rcases res with e | (z | z | z) <;> cases h
  | append r =>
    rcases res with e | (z | z | z) <;> cases h
    all_goals refine ⟨r, rfl, rfl, rfl, ?_⟩
    all_goals rintro _ ⟨⟩
    rfl

/-- The outcome of a letter closes it. -/
theorem closes_outcome (hl : x.net.sent[k]? = some l) (hopen : k ∉ x.concluded)
    (res : Except Error Response) :
    Closes (some (l.request.resultEvent l.target res)) (x.awaiting l.source)
      ((x.conclude k).awaiting l.source) where
  outcome q m y hsrc := by
    obtain ⟨r, hrequest, rfl, rfl, -⟩ := eq_append_of_resultEvent (Option.some.inj hsrc)
    rw [awaiting_conclude hl hopen, if_pos]
    unfold Letter.offers Effect.offers
    rw [hrequest]
    simp [AppendRequest.meta]
  other q t hother := by
    rw [awaiting_conclude hl hopen, if_neg, Nat.add_zero]
    intro hoffers
    unfold Letter.offers Effect.offers at hoffers
    rw [Bool.and_eq_true] at hoffers
    cases hrequest : l.request with
    | vote | timeoutNow =>
      rw [hrequest] at hoffers
      cases hoffers.2
    | append r =>
      rw [hrequest] at hoffers hother
      simp only [Bool.and_eq_true, beq_iff_eq] at hoffers
      obtain ⟨-, rfl, rfl⟩ := hoffers
      rcases res with e | (z | z | z) <;> exact hother _ _ rfl rfl

theorem Refused.of_conclude (h : (x.conclude k).Refused p q r hint) : x.Refused p q r hint := by
  obtain ⟨y, hy, j, z, hj, hopen, hrest⟩ := h
  exact ⟨y, hy, j, z, hj, fun hold => hopen (List.mem_append_left _ hold), hrest⟩

theorem Tracked.conclude (h : x.Tracked) (hl : x.net.sent[k]? = some l) :
    (x.conclude k).Tracked := by
  refine { h with concluded := fun j hj => ?_ }
  rcases List.mem_append.1 hj with hold | hnew
  · exact h.concluded j hold
  · obtain rfl := List.mem_singleton.1 hnew
    exact (List.getElem?_eq_some_iff.1 hl).1

theorem SiteBooks.conclude {A : Site} (h : SiteBooks (x.awaiting p) (x.Refused p) A)
    (hl : x.net.sent[k]? = some l) (hopen : k ∉ x.concluded) (hp : p ≠ l.source) :
    SiteBooks ((x.conclude k).awaiting p) ((x.conclude k).Refused p) A := by
  refine h.congr (fun q u => ?_) fun q r hint hr => Or.inl hr.of_conclude
  rw [awaiting_conclude hl hopen p q u, if_neg, Nat.add_zero]
  intro hoffers
  unfold Letter.offers at hoffers
  rw [Bool.and_eq_true, beq_iff_eq] at hoffers
  exact hp hoffers.1.symm

/-- What comes of an open append request agrees with the log and the books of its sender. -/
theorem agrees_outcome (h : Network.Sound members x.net record)
    (hs : x.net.site l.source = .up s) (hrun : s.isRunning = true) (hqueue : s.node.queue = [])
    (hbooks : s.node.tenure.Books (x.awaiting l.source) (x.Refused l.source))
    (hl : x.net.sent[k]? = some l) (hopen : k ∉ x.concluded) {res : Except Error Response}
    (hres : ∀ z, res = .ok (.append z) → ∃ y ∈ x.net.replies, x.origin y.caller = some k
      ∧ x.net.callers[y.caller]? = some (.letter l) ∧ y.answer = .append (.ok z)) :
    s.node.tenure.Agrees (some (l.request.resultEvent l.target res)) := by
  have hstays : s.node.tenure.retires = false := Tenure.stays_of_free hqueue
  have hledger : ∀ y, s.node.tenure.seat = .leader y →
      record.ledger s.node.hard.term = s.node.log.entries := by
    intro y hseat
    obtain ⟨l', hrole, -⟩ := Node.exists_leader_of_seat hseat
    rw [← Network.log_of_up hs]
    exact (h.leading hs hrun hstays hrole).2
  constructor
  · -- a success: the peer holds the log of the term as far as it says
    intro q m z y hsrc hterm hseat hsuccess
    obtain ⟨r, hrequest, rfl, rfl, hz⟩ := eq_append_of_resultEvent (Option.some.inj hsrc)
    obtain ⟨w, hw, -, hcaller, hanswer⟩ := hres z (hz z rfl)
    have hknows := h.knows_result hw hcaller (a := res) (by rw [hanswer, hz z rfl]; rfl)
    rw [Option.some.inj hsrc] at hknows
    have hheld := hknows.2.2 z rfl hsuccess
    rw [hterm] at hheld
    show z.matchIndex ≤ s.node.log.entries.length
    rw [← hledger y hseat]
    exact Nat.le_trans hheld (h.protocol.record.held_le _ _)
  · -- a rejection: the request was a part of the leader's log, and the books admit the hint
    intro q m z hint next y i hsrc hterm hseat hhint hnext hi
    obtain ⟨r, hrequest, rfl, rfl, hz⟩ := eq_append_of_resultEvent (Option.some.inj hsrc)
    obtain ⟨w, hw, horigin, hcaller, hanswer⟩ := hres z (hz z rfl)
    obtain ⟨source, target, request⟩ := l
    obtain rfl : request = .append r := hrequest
    obtain ⟨htarget, hne, hoffered⟩ := h.sent _ (List.mem_of_getElem? hl)
    have hpart := (h.protocol.record.offers r hoffered).2.1
    have hsame : r.term = s.node.hard.term := hterm
    rw [hsame, hledger y hseat] at hpart
    have hpeer : target ∈ s.node.tenure.peers := (mem_peers h hs hrun).2 ⟨htarget, hne⟩
    obtain ⟨i', v, hold⟩ := hbooks.tracks y hseat hstays target hpeer
    obtain rfl : i' = i := Option.some.inj (hold.matched.symm.trans hi)
    have hadmits := hold.admits r hint
      ⟨⟨w, hw, k, z, horigin, hopen, hl, hanswer, hhint⟩, hterm⟩
    have hordered : s.node.log.Ordered := by
      rw [← Network.log_of_up hs]
      exact ⟨h.positioned source, h.rising source⟩
    have hle := Nat.le_of_lt_succ (Nat.lt_of_lt_of_le hold.lt hold.le)
    obtain ⟨hlow, hhigh⟩ := hadmits.bounds hordered hle hpart.prev hnext
    refine ⟨hlow, Nat.le_trans hhigh (Nat.le_succ_of_le ?_)⟩
    exact le_length_of_termAt hpart.prev

/-! ## Runs -/

theorem exists_of_hears (h : x.hears k = true) :
    ∃ l s, x.net.sent[k]? = some l ∧ x.net.site l.source = .up s ∧ s.isRunning = true
      ∧ s.node.queue = [] := by
  unfold hears at h
  split at h
  · rename_i l hl
    obtain ⟨s, hs, hfree⟩ := Network.look_iff.1 h
    rw [Bool.and_eq_true, List.isEmpty_iff] at hfree
    exact ⟨l, s, hl, hs, hfree⟩
  · cases h

/-- An act that brings no outcome. -/
theorem Kept.advance (h : Kept (cluster.map Member.id) x) (hnone : x.outcome? a = none) :
    Kept (cluster.map Member.id)
      { x with net := x.net.step cluster a, origin := x.track a } := by
  obtain ⟨p, es, B, hturns, hturned⟩ := h.settled.turns cluster a
  have hrejecting : x.Rejecting p es (x.net.step cluster a) := h.rejecting hturns
  obtain ⟨htracked, hold⟩ := h.tracked.track hturned hrejecting
  obtain ⟨record, hsound⟩ := h.sound
  obtain ⟨record', -, hsound', -⟩ := hsound.step a
  refine ⟨h.settled.step cluster a, ⟨record', hsound'⟩, htracked, ?_⟩
  refine books_of_turned h.tracked htracked h.sound ⟨record', hsound'⟩ (fun p' _ => h.books p')
    hturned rfl hold hrejecting ?_
  exact books_of_turns hturns (h.books p) (fun q r hint hr => hr.awaiting_pos)
    fun s hs hrun src hsrc => h.source hnone hs hrun hsrc

/-- A member learns of an outcome. The letter is closed first, and then its outcome is taken up. -/
theorem Kept.hear (h : Kept (cluster.map Member.id) x) (hk : x.outcome? a = some k)
    (hopen : k ∉ x.concluded) (hhears : x.hears k = true) :
    Kept (cluster.map Member.id)
      { x with net := x.net.step cluster a, concluded := x.concluded ++ [k] } := by
  obtain ⟨l, s, hl, hs, hrun, hqueue⟩ := exists_of_hears hhears
  obtain ⟨res, hstep, hbrings, hres⟩ := exists_outcome cluster h.tracked hk hl
  obtain ⟨record, hsound⟩ := h.sound
  obtain ⟨record', -, hsound', -⟩ := hsound.step a
  have hturned := Network.turned_inform hs hrun hqueue res
  rw [← hstep] at hturned
  have hlabours := (Server.handle_labours (s := s) (t := s)
    (w := .event (l.request.resultEvent l.target res)) rfl rfl (h.settled.fits _ s hs hrun)
    fun _ => hqueue).1
  generalize s.handle (.event (l.request.resultEvent l.target res)) = s' at hlabours hturned
  have hrejecting : x.Rejecting l.source s'.takeEffects.1 (x.net.step cluster a) := by
    refine h.rejecting (a := a) (B := .up s'.takeEffects.2) ?_
    rw [hs]
    exact .does (fun _ => True) (.works _ hrun (Or.inl ⟨_, rfl, hbrings, hqueue⟩) hlabours)
  have htracked := h.tracked.conclude hl
  have hcallers := Network.callers_step x.net cluster a
  rw [calls_of_outcome hk, List.append_nil] at hcallers
  have htracked' : ({ x with net := x.net.step cluster a, concluded := x.concluded ++ [k] } :
      Exchange).Tracked := by
    refine htracked.advance hturned ?_ (fun _ _ => rfl) ?_ (fun c j hj => Or.inl hj)
      htracked.concluded hrejecting
    · exact ⟨[], (List.append_nil _).trans hcallers.symm⟩
    · intro c l' hge hl'
      dsimp only at hl'
      rw [hcallers] at hl'
      exact absurd (List.getElem?_eq_some_iff.1 hl').1 (Nat.not_lt.2 hge)
  have hbooks : SiteBooks (x.awaiting l.source) (x.Refused l.source) (x.net.site l.source) :=
    h.books l.source
  rw [hs] at hbooks
  have hright := hbooks.right hrun
  have hbooks' := hlabours.books hright (closes_outcome hl hopen res)
    (fun _ _ _ hr => hr.of_conclude) (fun _ _ _ hr => Refused.awaiting_pos hr)
    (agrees_outcome hsound hs hrun hqueue hright hl hopen hres) fun _ _ _ _ => hqueue
  refine ⟨h.settled.step cluster a, ⟨record', hsound'⟩, htracked', ?_⟩
  exact books_of_turned htracked htracked' ⟨record, hsound⟩ ⟨record', hsound'⟩
    (fun p hp => (h.books p).conclude hl hopen hp) hturned rfl (fun _ _ => rfl) hrejecting
    hbooks'.take

theorem Kept.step (h : Kept (cluster.map Member.id) x) (a : Act) :
    Kept (cluster.map Member.id) (x.step cluster a) := by
  unfold Exchange.step
  split
  · rename_i k hk
    split
    · rename_i hc
      exact h.hear hk hc.1 hc.2
    · exact h
  · rename_i hnone
    exact h.advance hnone

theorem kept_run (cluster : List Member) (whole : NodeId → Bool) (acts : List Act) :
    Kept (cluster.map Member.id) (run cluster whole acts) := by
  have hinit : Kept (cluster.map Member.id) { net := Network.init whole } := by
    refine ⟨Network.settled_init whole, ⟨{}, Network.sound_init _ whole⟩, ?_, ?_⟩
    · exact ⟨nofun, nofun, nofun, nofun⟩
    · exact fun p q u hq => absurd hq (Nat.lt_irrefl 0)
  unfold run steps
  induction acts using List.reverseRecOn with
  | nil => exact hinit
  | append_singleton acts a ih =>
    rw [List.foldl_append]
    exact ih.step a

end Raft.Exchange
