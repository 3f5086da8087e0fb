import Mathlib.Data.List.Induction
import Raft.Proofs.Apply.Replay
import Raft.Proofs.Apply.Window

/-!
# The entries that take effect

What applying a log comes to, said without session tables: a command takes effect unless its
sequence number took effect before, or a full window of greater ones of its client did. The tables
remember exactly the results under the greatest sequence numbers of each client.

* `effective window l`: the entries of `l` that take effect when `l` is applied once.
* `remembered window client done`: what is remembered of a client after some entries took effect.
* `Replay.matches_of`: applying a log entry by entry, with session tables, comes to the same.
-/

namespace Raft

/-! ## Entries -/

def Entry.request? (e : Entry) : Option (String × Nat) :=
  match e.payload with
  | .noop => none
  | .command c => some (c.client, c.sequence)

/-- What the state machine records of an entry. -/
def Entry.applied? (e : Entry) : Option Applied :=
  match e.payload with
  | .noop => none
  | .command c => some ⟨e.index, e.term, c.data⟩

/-- What an entry gives a client: the sequence number of its request, and the result. -/
def Entry.reply? (client : String) (e : Entry) : Option (Nat × CommitResult) :=
  match e.payload with
  | .noop => none
  | .command c => if c.client = client then some (c.sequence, ⟨e.term, e.index, c.data⟩) else none

def requests (done : List Entry) : List (String × Nat) := done.filterMap Entry.request?

def replies (client : String) (done : List Entry) : List (Nat × CommitResult) :=
  done.filterMap (Entry.reply? client)

/-- An entry takes effect after others did: it is a command whose request is not among theirs, and
fewer requests of its client than a window holds are greater. -/
def Entry.isFresh (window : Nat) (done : List Entry) (e : Entry) : Bool :=
  match e.payload with
  | .noop => false
  | .command c =>
    !(requests done).contains (c.client, c.sequence)
      && (requests done).countP (fun x => x.1 = c.client && c.sequence < x.2) < max window 1

/-- The entries that take effect when a list of entries is applied from its start. -/
def effective (window : Nat) (l : List Entry) : List Entry :=
  l.foldl (fun done e => if e.isFresh window done then done ++ [e] else done) []

/-- What is remembered of a client: the results under its greatest sequence numbers. -/
def remembered (window : Nat) (client : String) (done : List Entry) : Session :=
  (Session.sorted (replies client done)).top (max window 1)

/-- The entry at an index takes effect. -/
def TakesEffect (window : Nat) (l : List Entry) (i : Nat) : Prop :=
  ∃ e, entryAt l i = some e ∧ e.isFresh window (effective window (l.take (i - 1))) = true

variable {w k i : Nat} {l l' done : List Entry} {e : Entry} {c : Command} {client : String}
  {x : Replay} {m : Machine} {t : Sessions}

/-- Whether an entry takes effect depends on the log up to it. -/
theorem TakesEffect.congr (h : TakesEffect w l i) (hl : l'.take i = l.take i) :
    TakesEffect w l' i := by
  obtain ⟨e, he, hfresh⟩ := h
  refine ⟨e, (entryAt_congr hl (Nat.le_refl i)).trans he, ?_⟩
  rwa [← Nat.min_eq_left (Nat.sub_le i 1), ← List.take_take, hl, List.take_take,
    Nat.min_eq_left (Nat.sub_le i 1)]

theorem isFresh_command (hpayload : e.payload = .command c) :
    e.isFresh w done = true ↔ (c.client, c.sequence) ∉ requests done
      ∧ (requests done).countP (fun x => x.1 = c.client && c.sequence < x.2) < max w 1 := by
  unfold Entry.isFresh
  rw [hpayload]
  simp

/-! ## Requests and replies -/

theorem request?_command (hpayload : e.payload = .command c) :
    e.request? = some (c.client, c.sequence) := by
  unfold Entry.request?
  rw [hpayload]

theorem applied?_command (hpayload : e.payload = .command c) :
    e.applied? = some ⟨e.index, e.term, c.data⟩ := by
  unfold Entry.applied?
  rw [hpayload]

theorem reply?_command (hpayload : e.payload = .command c) :
    e.reply? client
      = if c.client = client then some (c.sequence, ⟨e.term, e.index, c.data⟩) else none := by
  unfold Entry.reply?
  rw [hpayload]

theorem filterMap_concat {β : Type} (f : Entry → Option β) (done : List Entry) (e : Entry) :
    (done ++ [e]).filterMap f = done.filterMap f ++ (f e).toList := by
  rw [List.filterMap_append]
  cases h : f e <;> simp [h]

theorem requests_concat (hpayload : e.payload = .command c) :
    requests (done ++ [e]) = requests done ++ [(c.client, c.sequence)] := by
  unfold requests
  rw [filterMap_concat, request?_command hpayload]
  rfl

theorem map_fst_replies (client : String) (done : List Entry) :
    (replies client done).map Prod.fst
      = (requests done).filterMap fun x => if x.1 = client then some x.2 else none := by
  induction done with
  | nil => rfl
  | cons e done ih =>
    unfold replies requests at ih ⊢
    rw [List.filterMap_cons, List.filterMap_cons]
    cases hpayload : e.payload with
    | noop =>
      have hreply : e.reply? client = none := by
        unfold Entry.reply?
        rw [hpayload]
      have hrequest : e.request? = none := by
        unfold Entry.request?
        rw [hpayload]
      rw [hreply, hrequest]
      exact ih
    | command c =>
      rw [reply?_command hpayload, request?_command hpayload]
      by_cases hclient : c.client = client
      · simp [hclient, ih]
      · simp [hclient, ih]

theorem mem_replies_iff {q : Nat} :
    q ∈ (replies client done).map Prod.fst ↔ (client, q) ∈ requests done := by
  rw [map_fst_replies, List.mem_filterMap]
  constructor
  · rintro ⟨⟨other, a⟩, hx, heq⟩
    split at heq
    · rename_i hother
      obtain rfl := Option.some.inj heq
      rwa [← hother]
    · cases heq
  · exact fun hq => ⟨(client, q), hq, if_pos rfl⟩

theorem countP_replies (q : Nat) :
    ((replies client done).map Prod.fst).countP (fun a => q < a)
      = (requests done).countP fun x => x.1 = client && q < x.2 := by
  rw [map_fst_replies, List.countP_filterMap]
  refine List.countP_congr fun x _ => ?_
  split <;> simp_all

theorem nodup_replies (h : (requests done).Nodup) (client : String) :
    ((replies client done).map Prod.fst).Nodup := by
  rw [map_fst_replies]
  refine h.filterMap ?_
  rintro ⟨a, p⟩ ⟨b, q⟩ z hx hy
  simp only [Option.mem_def, Option.ite_none_right_eq_some, Option.some.injEq] at hx hy
  rw [hx.1, hx.2, hy.1, hy.2]

/-! ## Session tables -/

namespace Replay

/-- Applying entries has come to what the ones that took effect say. -/
structure Matches (w : Nat) (x : Replay) (done : List Entry) : Prop where
  applied : x.applied = done.filterMap Entry.applied?
  window : x.sessions.window = max w 1
  session : ∀ client, x.sessions.session client = remembered w client done
  nodup : (requests done).Nodup

theorem Matches.sound (h : x.Matches w done) : x.sessions.Sound where
  window := by
    rw [h.window]
    exact Nat.le_max_right w 1
  rising client := by
    rw [h.session]
    exact Session.Rising.drop (Session.rising_sorted (nodup_replies h.nodup client)) _

/-- A command is new to the table if it takes effect. -/
theorem Matches.check_iff (h : x.Matches w done) (hpayload : e.payload = .command c) :
    x.sessions.check c.client c.sequence = .new ↔ e.isFresh w done = true := by
  have hkeys := (Session.sorted_perm (replies c.client done)).map Prod.fst
  rw [isFresh_command hpayload, ← not_iff_not, ← ne_eq, Sessions.check_ne_new_iff h.sound, h.window,
    h.session, remembered, (Session.rising_sorted (nodup_replies h.nodup _)).recalls_top_iff]
  unfold Session.keys
  rw [hkeys.mem_iff, hkeys.countP_eq, mem_replies_iff, countP_replies, not_and_or, not_not,
    Nat.not_lt]

theorem Matches.record (h : x.Matches w done) (hpayload : e.payload = .command c)
    (hfresh : e.isFresh w done = true) :
    Matches w ⟨x.sessions.record c.client c.sequence ⟨e.term, e.index, c.data⟩,
      x.applied ++ [⟨e.index, e.term, c.data⟩]⟩ (done ++ [e]) := by
  have hnew := ((isFresh_command hpayload).1 hfresh).1
  constructor
  · rw [filterMap_concat, ← h.applied, applied?_command hpayload]
    rfl
  · exact h.window
  · intro client
    rw [Sessions.session_record, h.session, h.session, h.window]
    unfold remembered replies
    rw [filterMap_concat, reply?_command hpayload]
    by_cases hclient : client = c.client
    · have hnodup := nodup_replies h.nodup c.client
      rw [if_pos hclient, if_pos hclient.symm, hclient, Option.toList_some]
      unfold replies at hnodup
      rw [Session.sorted_concat hnodup fun hmem => hnew (mem_replies_iff.1 hmem)]
      exact (Session.rising_sorted hnodup).top_put
    · rw [if_neg hclient, if_neg (Ne.symm hclient), Option.toList_none, List.append_nil]
  · rw [requests_concat hpayload, List.nodup_append]
    refine ⟨h.nodup, List.nodup_singleton _, fun a ha b hb => ?_⟩
    rw [List.mem_singleton.1 hb]
    rintro rfl
    exact hnew ha

theorem Matches.step (h : x.Matches w done) (e : Entry) :
    (x.step e).Matches w (if e.isFresh w done then done ++ [e] else done) := by
  rcases step_cases x e with ⟨hsame, hold⟩ | ⟨c, hpayload, hnew, hstep⟩
  · have hfresh : e.isFresh w done = false := by
      rw [Bool.eq_false_iff]
      intro hfresh
      cases hpayload : e.payload with
      | noop =>
        unfold Entry.isFresh at hfresh
        rw [hpayload] at hfresh
        cases hfresh
      | command c => exact hold c hpayload ((h.check_iff hpayload).2 hfresh)
    rw [hsame, hfresh]
    exact h
  · have hfresh := (h.check_iff hpayload).1 hnew
    rw [hstep, if_pos hfresh]
    exact h.record hpayload hfresh

/-- **Applying a log comes to the entries that take effect.** -/
theorem matches_of (window : Nat) (l : List Entry) :
    (of window l).Matches window (effective window l) := by
  induction l using List.reverseRecOn with
  | nil =>
    refine ⟨rfl, rfl, fun client => ?_, List.nodup_nil⟩
    show [] = remembered window client []
    unfold remembered replies Session.sorted
    simp [Session.top]
  | append_singleton l e ih =>
    unfold of effective at ih ⊢
    rw [List.foldl_append, List.foldl_append]
    exact ih.step e

end Replay

/-! ## State machines -/

namespace Machine

theorem Follows.matches (h : m.Follows w l k t) :
    Replay.Matches w ⟨t, m.applied⟩ (effective w (l.take k)) := by
  rw [← h.replay]
  exact Replay.matches_of w (l.take k)

/-- The next entry takes effect if its command is new to the table. -/
theorem Follows.takesEffect_iff (h : m.Follows w l k t) (he : entryAt l (k + 1) = some e) :
    TakesEffect w l (k + 1) ↔
      ∃ c, e.payload = .command c ∧ t.check c.client c.sequence = .new := by
  constructor
  · rintro ⟨x, hx, hfresh⟩
    obtain rfl := Option.some.inj (hx.symm.trans he)
    cases hpayload : x.payload with
    | noop =>
      unfold Entry.isFresh at hfresh
      rw [hpayload] at hfresh
      cases hfresh
    | command c => exact ⟨c, rfl, (h.matches.check_iff hpayload).2 hfresh⟩
  · rintro ⟨c, hpayload, hnew⟩
    exact ⟨e, he, (h.matches.check_iff hpayload).1 hnew⟩

end Machine

end Raft
