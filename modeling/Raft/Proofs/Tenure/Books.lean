import Raft.Proofs.Log.Hints
import Raft.Proofs.Node.PeerMap
import Raft.Proofs.Tenure.Servers

/-!
# The books of a leader

A leader keeps book of its peers: how far each is known to hold its log, where it goes on, and whose
outcome it awaits. The books are right about the append requests that are open, and they never count
a peer for the entry that it is sent next.

* `Tenure.awaited c a q t`: how many append requests to a peer are open.
* `Progress.Tracks x l R q m v`: what the leader knows of a peer.
* `Tenure.Books c R a`: the books are right.
* `Tenure.Agrees src o`: what comes of a request agrees with the log and the books.
* `Deed.books`, `Worked.books`, `Server.Labours.books`: they stay right.
-/

namespace Raft

open Node (stepsDown)

/-- Whether an effect sends an append request to a peer in a term. -/
def Effect.offers (q : NodeId) (t : Nat) : Effect → Bool
  | .send target (.append r) => target == q && r.term == t
  | _ => false

/-- How many append requests to a peer of a term are open: those that were sent, and those that
were just made. -/
def Tenure.awaited (c : NodeId → Nat → Nat) (a : Tenure) (q : NodeId) (t : Nat) : Nat :=
  c q t + a.said.countP (·.offers q t)

/-- What a leader that has a log knows of a peer: it holds the first `m` entries, and `v` is sent
next. Whatever request it rejected, its log had those entries. -/
structure Progress.Tracks (x : Progress) (l : Log) (R : AppendRequest → ConflictHint → Prop)
    (q : NodeId) (m v : Nat) : Prop where
  matched : x.matched.lookup q = some m
  next : x.next.lookup q = some v
  lt : m < v
  le : v ≤ l.entries.length + 1
  admits : ∀ r hint, R r hint → Admits l m r hint

/-- The books are right. So many append requests to a peer of a term were sent and are open, and
some of the open ones were rejected. -/
structure Tenure.Books (c : NodeId → Nat → Nat)
    (R : NodeId → AppendRequest → ConflictHint → Prop) (a : Tenure) : Prop where
  kept : a.hard.term ≤ (a.stored.getD {}).term
  past : ∀ q t, 0 < a.awaited c q t → t ≤ a.hard.term
  fresh : ∀ votes, a.seat = .candidate votes → ∀ q, a.awaited c q a.hard.term = 0
  awaits : ∀ x, a.seat = .leader x → a.retires = false →
    ∀ q, a.awaited c q a.hard.term = if q ∈ x.inFlight then 1 else 0
  tracks : ∀ x, a.seat = .leader x → a.retires = false → ∀ q ∈ a.peers,
    ∃ m v, x.Tracks a.log (fun r hint => R q r hint ∧ r.term = a.hard.term) q m v

/-- What comes of an append request of a leader agrees with its log and its books. -/
structure Tenure.Agrees (src : Option Event) (o : Tenure) : Prop where
  tallies : ∀ q request y x, src = some (.appendResult q request (.ok y)) →
    request.term = o.hard.term → o.seat = .leader x → y.success = true →
    y.matchIndex ≤ o.log.entries.length
  retreats : ∀ q request y hint next x m, src = some (.appendResult q request (.ok y)) →
    request.term = o.hard.term → o.seat = .leader x → y.conflict = some hint →
    LogStore.nextAfterConflict o.log hint request.prevIndex = .ok next →
    x.matched.lookup q = some m → m < next ∧ next ≤ o.log.entries.length + 1

/-- It is no longer awaited then. -/
structure Tenure.Heeds (src : Option Event) (o : Tenure) : Prop extends Tenure.Agrees src o where
  quiet : ∀ q request y x, src = some (.appendResult q request y) → request.term = o.hard.term →
    o.seat = .leader x → q ∉ x.inFlight

/-- The outcome of an append request closes one that is open, and nothing else does. -/
structure Closes (src : Option Event) (c c' : NodeId → Nat → Nat) : Prop where
  outcome : ∀ q request y, src = some (.appendResult q request y) →
    c q request.term = c' q request.term + 1
  other : ∀ q t, (∀ request y, src = some (.appendResult q request y) → request.term ≠ t) →
    c' q t = c q t

section

variable {src : Option Event} {o a b : Tenure} {c c' : NodeId → Nat → Nat}
  {R R' : NodeId → AppendRequest → ConflictHint → Prop}

/-! ## What changes little -/

theorem Progress.Tracks.congr {x y : Progress} {l l' : Log}
    {R R' : AppendRequest → ConflictHint → Prop} {q : NodeId} {m v : Nat} (h : x.Tracks l R q m v)
    (hmatched : y.matched.lookup q = x.matched.lookup q)
    (hnext : y.next.lookup q = x.next.lookup q) (hlog : l.entries <+: l'.entries)
    (hR : ∀ r hint, R' r hint → R r hint) : y.Tracks l' R' q m v where
  matched := hmatched.trans h.matched
  next := hnext.trans h.next
  lt := h.lt
  le := Nat.le_trans h.le (Nat.succ_le_succ hlog.length_le)
  admits r hint hr := by
    obtain ⟨f, hf, hrejects, hshared⟩ := h.admits r hint (hR r hint hr)
    refine ⟨f, hf, hrejects, ?_⟩
    rwa [take_eq_of_isPrefix hlog (Nat.le_of_lt_succ (Nat.lt_of_lt_of_le h.lt h.le))]

/-- Nothing that the books are about changes, but for entries that are added to the log. -/
theorem Tenure.Books.congr (h : a.Books c R) (hpeers : b.peers = a.peers) (hseat : b.seat = a.seat)
    (hhard : b.hard = a.hard) (hstored : b.stored = a.stored)
    (hlog : ∀ x, a.seat = .leader x → a.log.entries <+: b.log.entries)
    (hqueue : b.retires = false → a.retires = false)
    (hsaid : ∀ q t, b.said.countP (·.offers q t) = a.said.countP (·.offers q t)) :
    b.Books c R := by
  have hawaited : ∀ q t, b.awaited c q t = a.awaited c q t := by
    intro q t
    unfold awaited
    rw [hsaid]
  constructor
  · rw [hhard, hstored]
    exact h.kept
  · intro q t
    rw [hawaited, hhard]
    exact h.past q t
  · intro votes hvotes q
    rw [hawaited, hhard]
    exact h.fresh votes (hseat ▸ hvotes) q
  · intro x hx hstays q
    rw [hawaited, hhard]
    exact h.awaits x (hseat ▸ hx) (hqueue hstays) q
  · intro x hx hstays q hq
    obtain ⟨m, v, htracks⟩ := h.tracks x (hseat ▸ hx) (hqueue hstays) q (hpeers ▸ hq)
    exact ⟨m, v, htracks.congr rfl rfl (hlog x (hseat ▸ hx)) fun r hint hr => hhard ▸ hr⟩

/-- A term is entered and stored that is not older. Whoever leads is about to step down. -/
theorem Tenure.Books.enter (h : a.Books c R) {hard : HardState} {seat : Seat}
    {queue : List RoleEvent} (hterm : a.hard.term ≤ hard.term)
    (hleader : ∀ x, seat = .leader x → queue.any stepsDown = true)
    (hcandidate : ∀ votes, seat = .candidate votes →
      a.hard.term < hard.term ∨ a.seat = .candidate votes) :
    ({ a with seat, hard, stored := some hard, queue } : Tenure).Books c R where
  kept := Nat.le_refl _
  past q t hq := Nat.le_trans (h.past q t hq) hterm
  fresh votes hvotes q := by
    by_contra hne
    have hle := h.past q hard.term (Nat.pos_of_ne_zero hne)
    rcases hcandidate votes hvotes with hlt | hsame
    · omega
    · have := h.fresh votes hsame q
      rw [Nat.le_antisymm hterm hle] at this
      exact hne this
  awaits x hx hstays := by
    have hqueue : queue.any stepsDown = false := hstays
    rw [hleader x hx] at hqueue
    cases hqueue
  tracks x hx hstays := by
    have hqueue : queue.any stepsDown = false := hstays
    rw [hleader x hx] at hqueue
    cases hqueue

/-- A leader's books change, but neither the log nor what is open. -/
theorem Tenure.Books.note (h : a.Books c R) {x y : Progress} (hseat : a.seat = .leader x)
    (hinFlight : y.inFlight = x.inFlight)
    (htracks : a.retires = false → ∀ q ∈ a.peers, ∀ m v,
      x.Tracks a.log (fun r hint => R q r hint ∧ r.term = a.hard.term) q m v →
      ∃ m' v', y.Tracks a.log (fun r hint => R q r hint ∧ r.term = a.hard.term) q m' v') :
    ({ a with seat := .leader y } : Tenure).Books c R where
  kept := h.kept
  past := h.past
  fresh := nofun
  awaits z hz hstays q := by
    obtain rfl := Seat.leader.inj hz
    rw [hinFlight]
    exact h.awaits x hseat hstays q
  tracks z hz hstays q hq := by
    obtain rfl := Seat.leader.inj hz
    obtain ⟨m, v, hold⟩ := h.tracks x hseat hstays q hq
    exact htracks hstays q hq m v hold

/-! ## Deeds -/

/-- Append requests are sent by a deed of their own. -/
theorem Says.offers_eq_false {e : Effect} (h : Says src o a e) (q : NodeId) (t : Nat) :
    e.offers q t = false := by
  cases e with
  | answer => rfl
  | send target r =>
    cases r with
    | append => exact h.elim
    | vote | timeoutNow => rfl

theorem countP_offers_concat {e : Effect} (es : List Effect) (q : NodeId) (t : Nat)
    (h : e.offers q t = false) : (es ++ [e]).countP (·.offers q t) = es.countP (·.offers q t) := by
  rw [List.countP_append, List.countP_singleton, h]
  rfl

theorem Tenure.Books.lead (h : a.Books c R) {votes : List NodeId} {l : Log}
    (hseat : a.seat = .candidate votes) (hlog : a.log.entries <+: l.entries)
    (hR : ∀ q r hint, R q r hint → 0 < c q r.term) :
    ({ a with seat := .leader (.first a.peers a.log.lastIndex), log := l } : Tenure).Books c R where
  kept := h.kept
  past := h.past
  fresh := nofun
  awaits x hx _ q := by
    obtain rfl := Seat.leader.inj hx
    exact h.fresh votes hseat q
  tracks x hx _ q hq := by
    obtain rfl := Seat.leader.inj hx
    refine ⟨0, a.log.lastIndex + 1, ?_, ?_, Nat.succ_pos _, Nat.succ_le_succ hlog.length_le, ?_⟩
    · exact (PeerMap.lookup_foldl_put _ _ _ _).trans (if_pos hq)
    · exact (PeerMap.lookup_foldl_put _ _ _ _).trans (if_pos hq)
    · rintro r hint ⟨hr, hterm⟩
      have hopen : 0 < c q a.hard.term := hterm ▸ hR q r hint hr
      have hnone : c q a.hard.term + _ = 0 := h.fresh votes hseat q
      omega

/-- A leader sends entries to a peer that it does not await. -/
theorem Tenure.Books.send (h : a.Books c R) {x : Progress} {peer : NodeId} {r : AppendRequest}
    (hseat : a.seat = .leader x) (hfree : peer ∉ x.inFlight) (hterm : r.term = a.hard.term) :
    ({ a with
      seat := .leader { x with inFlight := peer :: x.inFlight }
      said := a.said ++ [.send peer (.append r)] } : Tenure).Books c R := by
  -- one more request to the peer is open
  have hawaited : ∀ q t, ({ a with
      seat := .leader { x with inFlight := peer :: x.inFlight }
      said := a.said ++ [.send peer (.append r)] } : Tenure).awaited c q t
      = a.awaited c q t + if peer = q ∧ a.hard.term = t then 1 else 0 := by
    intro q t
    unfold Tenure.awaited
    rw [List.countP_append, List.countP_singleton, ← Nat.add_assoc]
    simp [Effect.offers, hterm]
  constructor
  · exact h.kept
  · intro q t hq
    rw [hawaited] at hq
    split at hq
    · rename_i hsame
      exact Nat.le_of_eq hsame.2.symm
    · exact h.past q t hq
  · exact nofun
  · intro y hy hstays q
    obtain rfl := Seat.leader.inj hy
    rw [hawaited]
    show a.awaited c q a.hard.term + _ = _
    rw [h.awaits x hseat hstays q]
    by_cases hq : peer = q
    · subst hq
      rw [if_neg hfree, if_pos ⟨rfl, rfl⟩, if_pos (List.mem_cons_self ..)]
    · have hother : (if peer = q ∧ a.hard.term = a.hard.term then 1 else 0) = 0 :=
        if_neg fun hsame => hq hsame.1
      rw [hother]
      exact if_congr (by simp [Ne.symm hq]) rfl rfl
  · intro y hy hstays q hq
    obtain rfl := Seat.leader.inj hy
    obtain ⟨m, v, hold⟩ := h.tracks x hseat hstays q hq
    exact ⟨m, v, hold.congr rfl rfl List.prefix_rfl fun _ _ hr => hr⟩

/-- A leader learns how far a peer holds its log, of which nothing is open then. -/
theorem Tenure.Books.tally (h : a.Books c R) {x : Progress} {peer : NodeId} {i : Nat}
    (hseat : a.seat = .leader x) (hquiet : peer ∉ x.inFlight) (hi : i ≤ a.log.entries.length)
    (hR : ∀ q r hint, R q r hint → 0 < c q r.term) :
    ({ a with
      seat := .leader { x with
        matched := x.matched.put peer (max ((x.matched.lookup peer).getD 0) i)
        next := x.next.put peer (max ((x.next.lookup peer).getD (i + 1)) (i + 1)) } } :
      Tenure).Books c R := by
  refine h.note hseat rfl fun hstays q hq m v hold => ?_
  by_cases hpeer : q = peer
  · subst hpeer
    have hle := hold.le
    have hlt := hold.lt
    refine ⟨max m i, max v (i + 1), ?_, ?_, by omega, by omega, ?_⟩
    · rw [PeerMap.lookup_put, if_pos rfl, hold.matched]
      rfl
    · rw [PeerMap.lookup_put, if_pos rfl, hold.next]
      rfl
    · -- nothing is open from the peer, so no rejection is either
      rintro r hint ⟨hr, hterm⟩
      have hopen : 0 < c q a.hard.term := hterm ▸ hR q r hint hr
      have hnone : c q a.hard.term + _ = if q ∈ x.inFlight then 1 else 0 :=
        h.awaits x hseat hstays q
      rw [if_neg hquiet] at hnone
      omega
  · refine ⟨m, v, hold.congr ?_ ?_ List.prefix_rfl fun _ _ hr => hr⟩
    · rw [PeerMap.lookup_put, if_neg hpeer]
    · rw [PeerMap.lookup_put, if_neg hpeer]

/-- A leader steps back, but not to what a peer is known to hold. -/
theorem Tenure.Books.retreat (h : a.Books c R) {x : Progress} {peer : NodeId} {next : Nat}
    (hseat : a.seat = .leader x) (hnext : ∀ m, x.matched.lookup peer = some m →
      m < next ∧ next ≤ a.log.entries.length + 1) :
    ({ a with seat := .leader { x with next := x.next.put peer next } } : Tenure).Books c R := by
  refine h.note hseat rfl fun hstays q hq m v hold => ?_
  by_cases hpeer : q = peer
  · subst hpeer
    obtain ⟨hlt, hle⟩ := hnext m hold.matched
    refine ⟨m, next, hold.matched, ?_, hlt, hle, hold.admits⟩
    rw [PeerMap.lookup_put, if_pos rfl]
  · refine ⟨m, v, hold.congr rfl ?_ List.prefix_rfl fun _ _ hr => hr⟩
    rw [PeerMap.lookup_put, if_neg hpeer]

theorem Deed.books (h : Deed src o a b) (ha : a.Books c R) (ho : o.Heeds src)
    (hR : ∀ q r hint, R q r hint → 0 < c q r.term) : b.Books c R := by
  cases h with
  | say e he =>
    exact ha.congr rfl rfl rfl rfl (fun _ _ => List.prefix_rfl) id fun q t =>
      countP_offers_concat _ q t (he.offers_eq_false q t)
  | follow h hseat hterm => exact ha.enter hterm (hseat ▸ nofun) (hseat ▸ nofun)
  | merge l _ hseat =>
    refine ha.congr rfl rfl rfl rfl (fun x hx => ?_) id fun _ _ => rfl
    rw [hseat] at hx
    cases hx
  | summon hqueue | elect _ hqueue | commit _ hqueue =>
    exact ha.congr rfl rfl rfl rfl (fun _ _ => List.prefix_rfl) (fun _ => Tenure.stays_of_free hqueue)
      fun _ _ => rfl
  | yield t l hqueue hterm hseat hleader =>
    rcases Nat.lt_or_ge a.hard.term t with hlt | hge
    · rw [Tenure.adopt_of_lt hlt]
      exact ha.enter hterm (fun _ _ => rfl) fun _ _ => Or.inl hlt
    · rw [Tenure.adopt_of_le hge]
      exact ha.congr rfl rfl rfl rfl (fun _ _ => List.prefix_rfl) nofun fun _ _ => rfl
  | postpone => exact ha.congr rfl rfl rfl rfl (fun _ _ => List.prefix_rfl) nofun fun _ _ => rfl
  | stand t _ hqueue hseat hterm =>
    exact ha.enter (Nat.le_succ_of_le hterm) nofun fun _ _ => Or.inl (Nat.lt_succ_of_le hterm)
  | count peer votes hqueue hseat =>
    exact ⟨ha.kept, ha.past, fun _ _ => ha.fresh votes hseat, nofun, nofun⟩
  | lead votes l _ hqueue hseat hl =>
    exact ha.lead hseat (hl ▸ List.prefix_append _ _) hR
  | append q request caller x l _ hqueue hseat hl =>
    refine ha.congr rfl rfl rfl rfl (fun _ _ => ?_) id fun _ _ => rfl
    rw [hl]
    exact List.prefix_append _ _
  | register => exact ha.congr rfl rfl rfl rfl (fun _ _ => List.prefix_rfl) id fun _ _ => rfl
  | send peer r x next commit limit hseat hfree hrequest =>
    exact ha.send hseat hfree (appendRequest_isPartOf hrequest).1
  | tally peer request y x hsrc hterm hyterm hsuccess hseat hao =>
    subst hao
    exact ha.tally hseat (ho.quiet _ _ _ x hsrc hterm hseat)
      (ho.tallies _ _ _ x hsrc hterm hseat hsuccess) hR
  | retreat peer request y hint next x hsrc hterm hyterm hsuccess hhint hseat hnext hao =>
    subst hao
    exact ha.retreat hseat fun m hm => ho.retreats _ _ _ _ _ x m hsrc hterm hseat hhint hnext hm

/-! ## Works -/

theorem Closes.le (h : Closes src c c') (q : NodeId) (t : Nat) : c' q t ≤ c q t := by
  by_cases hq : ∀ request y, src = some (.appendResult q request y) → request.term ≠ t
  · exact Nat.le_of_eq (h.other q t hq)
  · push Not at hq
    obtain ⟨request, y, hsrc, rfl⟩ := hq
    rw [h.outcome q request y hsrc]
    exact Nat.le_succ _

theorem Closes.eq_of_ne (h : Closes src c c')
    (hsrc : ∀ q request y, src ≠ some (.appendResult q request y)) : c' = c := by
  funext q t
  exact h.other q t fun request y hx => absurd hx (hsrc q request y)

/-- Less is open, but not of what a leader sent in its term. -/
theorem Tenure.Books.close (h : a.Books c R) (hle : ∀ q t, c' q t ≤ c q t)
    (hsame : ∀ x, a.seat = .leader x → ∀ q, c' q a.hard.term = c q a.hard.term)
    (hR : ∀ q r hint, R' q r hint → R q r hint) : a.Books c' R' where
  kept := h.kept
  past q t hq := h.past q t (Nat.lt_of_lt_of_le hq (Nat.add_le_add_right (hle q t) _))
  fresh votes hvotes q := by
    have hnone : c q a.hard.term + _ = 0 := h.fresh votes hvotes q
    have := hle q a.hard.term
    show c' q a.hard.term + _ = 0
    omega
  awaits x hx hstays q := by
    rw [← h.awaits x hx hstays q]
    exact congrArg (· + _) (hsame x hx q)
  tracks x hx hstays q hq := by
    obtain ⟨m, v, hold⟩ := h.tracks x hx hstays q hq
    exact ⟨m, v, hold.congr rfl rfl List.prefix_rfl fun r hint hr => ⟨hR q r hint hr.1, hr.2⟩⟩

/-- What comes in closes a request, and its peer is no longer awaited. -/
theorem Tenure.Books.receive (h : a.Books c R) (hc : Closes src c c')
    (hR : ∀ q r hint, R' q r hint → R q r hint) : (a.receive src).Books c' R' := by
  unfold Tenure.receive
  split
  · rename_i peer request y x hseat
    -- only what is open from this peer in this term is closed
    have hother : ∀ q t, q ≠ peer ∨ t ≠ request.term → c' q t = c q t := by
      rintro q t hne
      refine hc.other q t fun request' y' heq => ?_
      obtain ⟨rfl, rfl, -⟩ := Event.appendResult.inj (Option.some.inj heq)
      rintro rfl
      exact hne.elim (fun hq => hq rfl) fun ht => ht rfl
    split
    · rename_i hterm
      have hbooks : a.Books c R' := h.close (fun _ _ => Nat.le_refl _) (fun _ _ _ => rfl) hR
      constructor
      · exact h.kept
      · exact fun q t hq =>
          h.past q t (Nat.lt_of_lt_of_le hq (Nat.add_le_add_right (hc.le q t) _))
      · exact nofun
      · intro z hz hstays q
        obtain rfl := Seat.leader.inj hz
        have hold := h.awaits x hseat hstays q
        unfold Tenure.awaited at hold ⊢
        dsimp only
        by_cases hq : q = peer
        · -- the one request that the peer was awaited for is closed
          subst hq
          have hclosed := hc.outcome q request y rfl
          rw [hterm] at hclosed
          rw [if_neg (by simp)]
          split at hold <;> omega
        · rw [hother q _ (Or.inl hq), hold]
          exact if_congr (by simp [hq]) rfl rfl
      · intro z hz hstays q hq
        obtain rfl := Seat.leader.inj hz
        obtain ⟨m, v, hold⟩ := hbooks.tracks x hseat hstays q hq
        exact ⟨m, v, hold.congr rfl rfl List.prefix_rfl fun _ _ hr => hr⟩
    · -- an outcome of an old request: the leader awaits what it awaited
      rename_i hterm
      exact h.close hc.le (fun _ _ q => hother q _ (Or.inr (Ne.symm hterm))) hR
  · rename_i hnone
    refine h.close hc.le (fun x hx q => hc.other q _ fun request y hsrc => ?_) hR
    exact absurd hx (hnone q request y x hsrc)

theorem Tenure.Agrees.receive (h : a.Agrees src) : (a.receive src).Heeds src := by
  unfold Tenure.receive
  split
  · rename_i peer request y x hseat
    split
    · refine ⟨⟨fun q r z _ hsrc hterm _ => h.tallies q r z x hsrc hterm hseat, ?_⟩, ?_⟩
      · intro q r z hint next x' m hsrc hterm hseat' hhint hnext hm
        obtain rfl := Seat.leader.inj hseat'
        exact h.retreats q r z hint next x m hsrc hterm hseat hhint hnext hm
      · intro q r z x' hsrc _ hseat'
        obtain ⟨rfl, -, -⟩ := Event.appendResult.inj (Option.some.inj hsrc)
        obtain rfl := Seat.leader.inj hseat'
        simp
    · rename_i hne
      refine ⟨h, fun q r z x' hsrc hterm _ => absurd ?_ hne⟩
      obtain ⟨-, rfl, -⟩ := Event.appendResult.inj (Option.some.inj hsrc)
      exact hterm
  · rename_i hnone
    exact ⟨h, fun q r z x hsrc _ hseat => absurd hseat (hnone q r z x hsrc)⟩

theorem Tenure.Books.retire (h : a.Books c R) {l : Option NodeId} {others : List Effect}
    {rest : List RoleEvent}
    (hothers : ∀ e ∈ others, ∃ caller y, e = .answer caller (.transfer y)) :
    ({ a.retire l others with queue := rest } : Tenure).Books c R := by
  cases hseat : a.seat with
  | follower | candidate =>
    rw [Tenure.retire_of_ne (by rw [hseat]; exact nofun)]
    exact ⟨h.kept, h.past, nofun, nofun, nofun⟩
  | leader x =>
    rw [Tenure.retire_of_leader hseat]
    refine ⟨h.kept, fun q t hq => h.past q t ?_, nofun, nofun, nofun⟩
    have hredirects : (Node.Leader.redirects a.waiters l).countP (·.offers q t) = 0 := by
      refine List.countP_eq_zero.2 fun e he => ?_
      obtain ⟨w, -, rfl⟩ := List.mem_map.1 he
      exact Bool.false_ne_true
    have hnone : others.countP (·.offers q t) = 0 := by
      refine List.countP_eq_zero.2 fun e he => ?_
      obtain ⟨caller, y, rfl⟩ := hothers e he
      exact Bool.false_ne_true
    unfold Tenure.awaited at hq ⊢
    rwa [List.countP_append, List.countP_append, hredirects, hnone] at hq

theorem Worked.books (h : Worked src a b) (ha : a.Books c R) (hc : Closes src c c')
    (hsub : ∀ q r hint, R' q r hint → R q r hint) (hR : ∀ q r hint, R' q r hint → 0 < c' q r.term)
    (hagrees : a.Agrees src)
    (hidle : ∀ q request y, src = some (.appendResult q request y) → a.queue = []) :
    b.Books c' R' := by
  have hbusy : a.queue ≠ [] → a.Books c' R' := by
    intro hqueue
    have hsame := hc.eq_of_ne fun q request y hsrc => hqueue (hidle q request y hsrc)
    exact ha.close hc.le (fun _ _ q => by rw [hsame]) hsub
  cases h with
  | told i hqueue =>
    exact (hbusy (by rw [hqueue]; exact nofun)).congr rfl rfl rfl rfl (fun _ _ => List.prefix_rfl)
      (fun _ => Tenure.retires_of_queue hqueue) fun _ _ => rfl
  | retired l rest others hqueue hothers =>
    exact (hbusy (by rw [hqueue]; exact nofun)).retire hothers
  | handled _ htakes h =>
    have hpop : ({ a with queue := [] } : Tenure).Books c R :=
      ha.congr rfl rfl rfl rfl (fun _ _ => List.prefix_rfl) (fun _ => htakes.stays) fun _ _ => rfl
    have hheeds : (({ a with queue := [] } : Tenure).receive src).Heeds src :=
      Tenure.Agrees.receive ⟨hagrees.tallies, hagrees.retreats⟩
    exact h.induct (P := Tenure.Books c' R') (fun _ _ _ hx hdeed => hdeed.books hx hheeds hR)
      (hpop.receive hc hsub)

end

/-! ## Servers -/

namespace Server

variable {Source : Option Event → Prop} {Named : String → Prop} {src : Option Event} {s t : Server}
  {c c' : NodeId → Nat → Nat} {R R' : NodeId → AppendRequest → ConflictHint → Prop}

/-- The books of a server are right while its event loop runs, and nothing that is open is of a term
after the one that is stored. -/
structure Books (c : NodeId → Nat → Nat) (R : NodeId → AppendRequest → ConflictHint → Prop)
    (s : Server) : Prop where
  right : s.isRunning = true → s.node.tenure.Books c R
  past : ∀ q u, 0 < s.node.tenure.awaited c q u → u ≤ (s.node.stored.getD {}).term

theorem Labours.books (h : Labours src s t) (hs : s.node.tenure.Books c R) (hc : Closes src c c')
    (hsub : ∀ q r hint, R' q r hint → R q r hint) (hR : ∀ q r hint, R' q r hint → 0 < c' q r.term)
    (hagrees : s.node.tenure.Agrees src)
    (hidle : ∀ q request y, src = some (.appendResult q request y) → s.node.queue = []) :
    t.Books c' R' := by
  cases h with
  | goes _ h =>
    have ht := h.books hs hc hsub hR hagrees hidle
    exact ⟨fun _ => ht, fun q u hq => Nat.le_trans (ht.past q u hq) ht.kept⟩
  | ends m hended h hspares =>
    have hm := h.books hs hc hsub hR hagrees hidle
    constructor
    · exact fun hrun => absurd hrun (not_isRunning hended)
    · intro q u hq
      unfold Tenure.awaited at hq
      rw [hspares.said] at hq
      exact hspares.le_stored hm.kept (hm.past q u hq)

/-- **One step** of a server to which no outcome of an append request comes. -/
theorem Does.books (h : s.Does Source Named t) (hs : s.Books c R)
    (hR : ∀ q r hint, R q r hint → 0 < c q r.term)
    (hsource : s.isRunning = true → ∀ src, Source src → ∀ q request y,
      src ≠ some (.appendResult q request y)) : t.Books c R := by
  rcases h.idles_or_labours with ⟨hended, hidles⟩ | ⟨src, hrun, hsrc, h⟩
  · obtain ⟨log, applied, done, waiters, replied, hlog, ht⟩ := hidles
    constructor
    · intro hrun
      rw [ht]
      refine (hs.right (isRunning_of_ended hended ▸ hrun)).congr rfl rfl rfl rfl (fun _ _ => ?_) id
        fun _ _ => rfl
      exact isPrefix_of_eq hlog.symm
    · intro q u hq
      rw [ht] at hq
      have hstored : t.node.stored = s.node.stored := congrArg Tenure.stored ht
      rw [hstored]
      exact hs.past q u hq
  · have hnone := hsource hrun src hsrc
    refine h.books (hs.right hrun) ⟨fun q r y hx => absurd hx (hnone q r y), fun _ _ _ => rfl⟩
      (fun _ _ _ hr => hr) hR ?_ fun q r y hx => absurd hx (hnone q r y)
    exact ⟨fun q r y x hx => absurd hx (hnone q r _),
      fun q r y hint next x m hx => absurd hx (hnone q r _)⟩

/-- What is sent is open when it is taken. -/
theorem Books.take (h : t.Books c R) :
    t.takeEffects.2.Books (fun q u => c q u + t.takeEffects.1.countP (·.offers q u)) R := by
  -- what is sent counts as open now, and no longer as said
  have hawaited : ∀ q u, t.takeEffects.2.node.tenure.awaited
      (fun q u => c q u + t.takeEffects.1.countP (·.offers q u)) q u
      = t.node.tenure.awaited c q u := by
    intro q u
    have hanswers : (t.node.applier.answers.map fun a => Effect.answer a.1 (.client a.2)).countP
        (·.offers q u) = 0 := by
      refine List.countP_eq_zero.2 fun e he => ?_
      obtain ⟨a, -, rfl⟩ := List.mem_map.1 he
      exact Bool.false_ne_true
    have hall : t.takeEffects.1.countP (·.offers q u) = t.node.tenure.said.countP (·.offers q u) := by
      show (t.node.effects.map Departure.effect ++ _).countP _ = _
      rw [List.countP_append, hanswers]
      rfl
    show c q u + t.takeEffects.1.countP (·.offers q u) + 0 = _
    rw [hall]
    rfl
  constructor
  · intro hrun
    have ht := h.right hrun
    constructor
    · exact ht.kept
    · intro q u
      rw [hawaited]
      exact ht.past q u
    · intro votes hvotes q
      rw [hawaited]
      exact ht.fresh votes hvotes q
    · intro x hx hstays q
      rw [hawaited]
      exact ht.awaits x hx hstays q
    · exact ht.tracks
  · intro q u
    rw [hawaited]
    exact h.past q u

end Server

/-! ## Rejections -/

section

variable {Source : Option Event → Prop} {Named : String → Prop} {src : Option Event}
  {o a b : Tenure} {s t : Server} {caller : Caller} {y : AppendResponse} {hint : ConflictHint}

theorem Reached.conflicts (h : Reached src o a) (hy : .answer caller (.append (.ok y)) ∈ a.said)
    (hhint : y.conflict = some hint) : .answer caller (.append (.ok y)) ∈ o.said
      ∨ ∃ r, src = some (.appendRequest r caller) ∧ o.hard.term ≤ r.term
        ∧ Rejects o.log r hint := by
  revert hy
  refine h.induct (P := fun x => .answer caller (.append (.ok y)) ∈ x.said → _) ?_ Or.inl
  intro x z _ ih hdeed hz
  cases hdeed with
  | say e he =>
    rcases List.mem_append.1 hz with hold | hnew
    · exact ih hold
    · obtain rfl := List.mem_singleton.1 hnew
      obtain ⟨r, hsrc, hterm, -, hrejects⟩ := he hint hhint
      exact Or.inr ⟨r, hsrc, hterm, hrejects⟩
  | send =>
    rcases List.mem_append.1 hz with hold | hnew
    · exact ih hold
    · cases List.mem_singleton.1 hnew
  | _ => exact ih hz

/-- Whoever rejects a request has just handled it, and is not in a later term. -/
theorem Worked.conflicts (h : Worked src a b) (hy : .answer caller (.append (.ok y)) ∈ b.said)
    (hhint : y.conflict = some hint) : .answer caller (.append (.ok y)) ∈ a.said
      ∨ ∃ r, src = some (.appendRequest r caller) ∧ a.hard.term ≤ r.term
        ∧ Rejects a.log r hint := by
  cases h with
  | told => exact Or.inl hy
  | retired l rest others hqueue hothers =>
    left
    cases hseat : a.seat with
    | follower | candidate =>
      rwa [Tenure.retire_of_ne (by rw [hseat]; exact nofun)] at hy
    | leader x =>
      rw [Tenure.retire_of_leader hseat] at hy
      rcases List.mem_append.1 hy with hleft | hother
      · rcases List.mem_append.1 hleft with hold | hredirect
        · exact hold
        · obtain ⟨w, -, hw⟩ := List.mem_map.1 hredirect
          cases hw
      · obtain ⟨caller', z, hz⟩ := hothers _ hother
        cases hz
  | handled _ _ h =>
    obtain ⟨x, hx⟩ := Tenure.exists_receive_eq { a with queue := [] } src
    rw [hx] at h
    exact h.conflicts hy hhint

theorem Server.Does.conflicts (h : s.Does Source Named t) (hsaid : s.node.tenure.said = [])
    (hy : .answer caller (.append (.ok y)) ∈ t.takeEffects.1) (hhint : y.conflict = some hint) :
    ∃ r, s.isRunning = true ∧ Source (some (.appendRequest r caller))
      ∧ s.node.hard.term ≤ r.term ∧ Rejects s.node.log r hint := by
  have hy : .answer caller (.append (.ok y)) ∈ t.node.tenure.said := by
    rcases List.mem_append.1 hy with hloop | hanswer
    · exact hloop
    · obtain ⟨x, -, hx⟩ := List.mem_map.1 hanswer
      cases hx
  rcases h.idles_or_labours with ⟨-, hidles⟩ | ⟨src, hrun, hsrc, h⟩
  · obtain ⟨log, applied, done, waiters, replied, -, h⟩ := hidles
    rw [h] at hy
    have hy : .answer caller (.append (.ok y)) ∈ s.node.tenure.said := hy
    rw [hsaid] at hy
    cases hy
  · have hworked : ∀ m : Tenure, Worked src s.node.tenure m → t.node.tenure.said = m.said →
        ∃ r, s.isRunning = true ∧ Source (some (.appendRequest r caller))
          ∧ s.node.hard.term ≤ r.term ∧ Rejects s.node.log r hint := by
      intro m hm heq
      rw [heq] at hy
      rcases hm.conflicts hy hhint with hold | ⟨r, rfl, hterm, hrejects⟩
      · rw [hsaid] at hold
        cases hold
      · exact ⟨r, hrun, hsrc, hterm, hrejects⟩
    cases h with
    | goes _ h => exact hworked _ h rfl
    | ends m _ h hspares => exact hworked m h hspares.said

end

end Raft
