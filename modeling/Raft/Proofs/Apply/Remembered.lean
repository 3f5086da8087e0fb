import Mathlib.Data.Finset.Max
import Mathlib.Data.List.Induction
import Mathlib.Order.Bounds.Basic
import Raft.Proofs.Apply.Window

/-!
# What a session table remembers

Results are recorded for clients in any order of sequence numbers. What a table makes of a request
can be read off what was recorded for its client: it remembers the greatest numbers, as many as the
window allows, each with the result that was recorded last.

* `Recording` is one result that is recorded; `Recording.numbers` and `Recording.last?` read off a
  list of them what was recorded for a client.
* `greatest window s`: the greatest numbers of a set.
* `Sessions.recordAll window rs`: the table after the results `rs` were recorded.
* `Sessions.IsTopWindow t window rs client`: the table is as it should be for a client.
* `top_window` is the result.
-/

namespace Raft

/-- A result that is recorded for a client, under a sequence number. -/
structure Recording where
  client : String
  sequence : Nat
  result : CommitResult
  deriving DecidableEq, Repr

namespace Recording

/-- What was recorded for a client. -/
def ofClient (client : String) (rs : List Recording) : List Recording :=
  rs.filter fun r => r.client = client

theorem ofClient_concat (client : String) (rs : List Recording) (x : Recording) :
    ofClient client (rs ++ [x])
      = if x.client = client then ofClient client rs ++ [x] else ofClient client rs := by
  unfold ofClient
  rw [List.filter_append]
  split <;> simp_all

def numbers (client : String) (rs : List Recording) : Finset Nat :=
  ((ofClient client rs).map sequence).toFinset

/-- The result that was recorded last for a client under a sequence number. -/
def last? (client : String) (q : Nat) (rs : List Recording) : Option CommitResult :=
  ((ofClient client rs).reverse.find? fun r => r.sequence = q).map result

end Recording

/-- The greatest numbers of a set: those that fewer than `window` of it exceed. -/
def greatest (window : Nat) (s : Finset Nat) : Finset Nat :=
  s.filter fun q => (s.filter fun k => q < k).card < window

/-! ## A session that is never trimmed -/

namespace Session

variable {s : Session} {k q : Nat} {r : CommitResult} {window : Nat}

theorem lookup_put : (put k r s).lookup q = if q = k then some r else s.lookup q := by
  induction s with
  | nil =>
    unfold put
    rw [List.lookup_cons]
    split <;> simp_all
  | cons x s ih =>
    obtain ⟨a, old⟩ := x
    unfold put
    split
    · rename_i hak
      rw [List.lookup_cons, List.lookup_cons, ih]
      split
      · rename_i hqa
        rw [beq_iff_eq] at hqa
        rw [if_neg (by omega)]
      · rfl
    · split
      · rename_i hak
        rw [List.lookup_cons, List.lookup_cons, hak]
        split <;> simp_all
      · rw [List.lookup_cons]
        split <;> simp_all

/-- The session of a client in a table without a window. -/
def ofRecordings (rs : List Recording) : Session :=
  rs.foldl (fun s r => s.put r.sequence r.result) []

theorem ofRecordings_concat (rs : List Recording) (x : Recording) :
    ofRecordings (rs ++ [x]) = (ofRecordings rs).put x.sequence x.result := by
  unfold ofRecordings
  rw [List.foldl_append]
  rfl

theorem rising_ofRecordings (rs : List Recording) : (ofRecordings rs).Rising := by
  induction rs using List.reverseRecOn with
  | nil => exact List.Pairwise.nil
  | append_singleton rs x ih =>
    rw [ofRecordings_concat]
    exact ih.put

theorem mem_keys_ofRecordings (rs : List Recording) :
    q ∈ (ofRecordings rs).keys ↔ q ∈ rs.map Recording.sequence := by
  induction rs using List.reverseRecOn with
  | nil => exact Iff.rfl
  | append_singleton rs x ih =>
    rw [ofRecordings_concat, mem_keys_put, ih, List.map_append, List.mem_append, or_comm]
    simp

theorem lookup_ofRecordings (rs : List Recording) :
    (ofRecordings rs).lookup q
      = (rs.reverse.find? fun r => r.sequence = q).map Recording.result := by
  induction rs using List.reverseRecOn with
  | nil => rfl
  | append_singleton rs x ih =>
    rw [ofRecordings_concat, lookup_put, ih, List.reverse_append, List.reverse_singleton,
      List.singleton_append, List.find?_cons]
    by_cases hq : q = x.sequence
    · simp [hq]
    · simp [hq, Ne.symm hq]

/-! ## Sessions in order -/

theorem Rising.nodup (h : s.Rising) : s.keys.Nodup := h.imp Nat.ne_of_lt

theorem Rising.mem_top_iff (h : s.Rising) :
    (q, r) ∈ s.top window ↔ q ∈ (s.top window).keys ∧ s.lookup q = some r := by
  have hsub : ∀ {x}, x ∈ s.top window → x ∈ s := fun hx => List.mem_of_mem_drop hx
  rw [lookup_eq_some_iff_mem h.nodup]
  constructor
  · exact fun hmem => ⟨List.mem_map_of_mem hmem, hsub hmem⟩
  · rintro ⟨hkey, hmem⟩
    obtain ⟨x, hx, rfl⟩ := List.mem_map.1 hkey
    rwa [← List.inj_on_of_nodup_map h.nodup (hsub hx) hmem rfl]

theorem Rising.card_keys (h : s.Rising) : s.keys.toFinset.card = s.length := by
  rw [List.toFinset_card_of_nodup h.nodup]
  exact List.length_map _

/-- What a trimmed session remembers are the greatest numbers. -/
theorem Rising.mem_greatest_iff (h : s.Rising) :
    q ∈ greatest window s.keys.toFinset ↔ q ∈ (s.top window).keys := by
  have hcard : (s.keys.toFinset.filter fun k => q < k).card = s.keys.countP fun a => q < a := by
    rw [List.countP_eq_length_filter, ← List.toFinset_card_of_nodup (h.nodup.filter _)]
    congr 1
    ext a
    simp
  unfold greatest
  rw [Finset.mem_filter, hcard, List.mem_toFinset, h.mem_keys_top_iff]

theorem le_length_top_iff : window ≤ (s.top window).length ↔ window ≤ s.length := by
  unfold top
  rw [List.length_drop]
  omega

theorem Rising.latest?_eq_some_iff (h : s.Rising) :
    s.latest? = some k ↔ IsGreatest (s.keys.toFinset : Set Nat) k := by
  rcases List.eq_nil_or_concat s with rfl | ⟨front, ⟨a, r⟩, rfl⟩
  · exact ⟨nofun, fun hk => absurd hk.1 (by simp [keys])⟩
  · rw [List.concat_eq_append] at h ⊢
    have hgreatest : IsGreatest ((keys (front ++ [(a, r)])).toFinset : Set Nat) a := by
      unfold Rising keys at h
      rw [List.map_append, List.pairwise_append] at h
      refine ⟨by simp [keys], fun b hb => ?_⟩
      have hb : b ∈ front.map Prod.fst ∨ b = a := by simpa [keys, or_comm] using hb
      rcases hb with hb | rfl
      · exact Nat.le_of_lt (h.2.2 b hb a (List.mem_singleton_self a))
      · exact Nat.le_refl _
    have hlatest : latest? (front ++ [(a, r)]) = some a := by simp [latest?]
    rw [hlatest, Option.some_inj]
    exact ⟨fun hk => hk ▸ hgreatest, fun hk => hgreatest.unique hk⟩

/-- The last number of a session stays when the session is trimmed. -/
theorem latest?_top (hwindow : 1 ≤ window) : (s.top window).latest? = s.latest? := by
  unfold latest? top
  rw [List.getLast?_drop]
  split
  · have hempty : s = [] := List.length_eq_zero_iff.1 (by omega)
    rw [hempty]
    rfl
  · rfl

end Session

/-! ## The greatest numbers of a set -/

/-- At least a window of greater numbers is there exactly if the set has that many numbers and all
that are among the greatest are greater. -/
theorem forall_greatest_lt_iff {window q : Nat} (s : Finset Nat) :
    (window ≤ s.card ∧ ∀ a ∈ greatest window s, q < a)
      ↔ window ≤ (s.filter fun k => q < k).card := by
  constructor
  · rintro ⟨hcard, hall⟩
    by_contra hfew
    have hsplit := Finset.card_filter_add_card_filter_not (s := s) fun k => q < k
    have hsome : (s.filter fun k => ¬ q < k).Nonempty := by
      rw [← Finset.card_pos]
      omega
    -- the greatest of the numbers that are not greater is exceeded by the others alone
    obtain ⟨b, hb, hmax⟩ := Finset.exists_max_image _ id hsome
    obtain ⟨hbs, hbq⟩ := Finset.mem_filter.1 hb
    have hsub : (s.filter fun k => b < k) ⊆ s.filter fun k => q < k := by
      intro k hk
      obtain ⟨hks, hbk⟩ := Finset.mem_filter.1 hk
      refine Finset.mem_filter.2 ⟨hks, ?_⟩
      by_contra hkq
      exact absurd (hmax k (Finset.mem_filter.2 ⟨hks, hkq⟩)) (Nat.not_le.2 hbk)
    have hle := Finset.card_le_card hsub
    exact hbq (hall b (Finset.mem_filter.2 ⟨hbs, by omega⟩))
  · intro hmany
    refine ⟨Nat.le_trans hmany (Finset.card_filter_le _ _), fun a ha => ?_⟩
    by_contra hqa
    have hfew := (Finset.mem_filter.1 ha).2
    have hsub : (s.filter fun k => q < k) ⊆ s.filter fun k => a < k := by
      intro k hk
      obtain ⟨hks, hqk⟩ := Finset.mem_filter.1 hk
      exact Finset.mem_filter.2 ⟨hks, by omega⟩
    have hle := Finset.card_le_card hsub
    omega

namespace Sessions

open Recording (numbers last? ofClient)

variable {t t' : Sessions} {client : String} {q k : Nat} {r : CommitResult}
  {rs more : List Recording}

/-! ## What a table makes of a request -/

theorem check_eq_applied_iff (h : t.Sound) :
    t.check client q = .applied r ↔ (t.session client).lookup q = some r := by
  rcases check_cases h client q with ⟨r', hr, hcheck⟩ | ⟨hnot, ⟨-, _, -, hcheck⟩ | ⟨-, hcheck⟩⟩
  · rw [hcheck, hr, Option.some_inj]
    exact ⟨SessionCheck.applied.inj, congrArg _⟩
  · rw [hcheck, Session.lookup_eq_none_iff.2 hnot]
    exact ⟨nofun, nofun⟩
  · rw [hcheck, Session.lookup_eq_none_iff.2 hnot]
    exact ⟨nofun, nofun⟩

theorem check_eq_stale_iff (h : t.Sound) :
    t.check client q = .stale k
      ↔ (t.window ≤ (t.session client).length ∧ ∀ a ∈ (t.session client).keys, q < a)
        ∧ (t.session client).latest? = some k := by
  rcases check_cases h client q with
    ⟨r, hr, hcheck⟩ | ⟨-, ⟨hold, k', hlatest, hcheck⟩ | ⟨hnew, hcheck⟩⟩
  · rw [hcheck]
    refine ⟨nofun, fun hold => ?_⟩
    exact absurd (hold.1.2 q (Session.mem_keys_of_lookup hr)) (Nat.lt_irrefl q)
  · rw [hcheck, hlatest, Option.some_inj]
    exact ⟨fun hk => ⟨hold, SessionCheck.stale.inj hk⟩, fun hk => congrArg _ hk.2⟩
  · rw [hcheck]
    exact ⟨nofun, fun hold => absurd hold.1 hnew⟩

theorem check_eq_new_iff (h : t.Sound) :
    t.check client q = .new ↔ q ∉ (t.session client).keys
      ∧ ¬ (t.window ≤ (t.session client).length ∧ ∀ a ∈ (t.session client).keys, q < a) := by
  rw [← not_iff_not, ← ne_eq, check_ne_new_iff h, not_and_or, not_not, not_not]
  rfl

theorem check_congr (hwindow : t.window = t'.window)
    (hsession : t.session client = t'.session client) : t.check client q = t'.check client q := by
  unfold check
  rw [hwindow, hsession]

/-! ## Recording -/

/-- The table after some results were recorded, one after the other. -/
def recordAll (window : Nat) (rs : List Recording) : Sessions :=
  rs.foldl (fun t r => t.record r.client r.sequence r.result) (empty window)

theorem recordAll_concat (window : Nat) (rs : List Recording) (x : Recording) :
    recordAll window (rs ++ [x])
      = (recordAll window rs).record x.client x.sequence x.result := by
  unfold recordAll
  rw [List.foldl_append]
  rfl

theorem window_recordAll (window : Nat) (rs : List Recording) :
    (recordAll window rs).window = max window 1 := by
  induction rs using List.reverseRecOn with
  | nil => rfl
  | append_singleton rs x ih =>
    rw [recordAll_concat]
    exact ih

theorem sound_recordAll (window : Nat) (rs : List Recording) : (recordAll window rs).Sound := by
  induction rs using List.reverseRecOn with
  | nil => exact sound_empty window
  | append_singleton rs x ih =>
    rw [recordAll_concat]
    exact ih.record

/-- A session is that of a table without a window, trimmed. -/
theorem session_recordAll (window : Nat) (client : String) (rs : List Recording) :
    (recordAll window rs).session client
      = (Session.ofRecordings (ofClient client rs)).top (max window 1) := by
  induction rs using List.reverseRecOn with
  | nil => exact (Session.top_of_length_le (Nat.zero_le _)).symm
  | append_singleton rs x ih =>
    rw [recordAll_concat, session_record, window_recordAll, Recording.ofClient_concat]
    by_cases hx : client = x.client
    · subst hx
      rw [if_pos rfl, if_pos rfl, ih, Session.ofRecordings_concat]
      exact (Session.rising_ofRecordings _).top_put
    · rw [if_neg hx, if_neg (Ne.symm hx), ih]

/-! ## The top window -/

/-- The table remembers of a client the greatest numbers that were recorded, each with the result
that was recorded last, and knows of the others which are older than all of them. -/
structure IsTopWindow (t : Sessions) (window : Nat) (client : String) (rs : List Recording) :
    Prop where
  rising : (t.session client).Rising
  mem_iff : ∀ q r, (q, r) ∈ t.session client
    ↔ q ∈ greatest window (numbers client rs) ∧ last? client q rs = some r
  applied_iff : ∀ q r, t.check client q = .applied r
    ↔ q ∈ greatest window (numbers client rs) ∧ last? client q rs = some r
  stale_iff : ∀ q k, t.check client q = .stale k
    ↔ (window ≤ (numbers client rs).card ∧ ∀ a ∈ greatest window (numbers client rs), q < a)
      ∧ IsGreatest (numbers client rs : Set Nat) k
  new_iff : ∀ q, t.check client q = .new
    ↔ q ∉ greatest window (numbers client rs)
      ∧ ¬ (window ≤ (numbers client rs).card ∧ ∀ a ∈ greatest window (numbers client rs), q < a)
  latest_iff : ∀ k, t.latest? client = some k ↔ IsGreatest (numbers client rs : Set Nat) k

theorem isTopWindow_recordAll (window : Nat) (client : String) (rs : List Recording) :
    (recordAll window rs).IsTopWindow (max window 1) client rs := by
  have hsound := sound_recordAll window rs
  have hwindow := window_recordAll window rs
  have hsession := session_recordAll window client rs
  have hrising := Session.rising_ofRecordings (ofClient client rs)
  have hlast : ∀ q, (Session.ofRecordings (ofClient client rs)).lookup q = last? client q rs :=
    fun q => Session.lookup_ofRecordings (ofClient client rs)
  have hnumbers : (Session.ofRecordings (ofClient client rs)).keys.toFinset
      = numbers client rs := by
    ext q
    unfold numbers
    rw [List.mem_toFinset, List.mem_toFinset, Session.mem_keys_ofRecordings]
  -- from here on only the sorted session of the client counts
  generalize Session.ofRecordings (ofClient client rs) = s at hsession hrising hlast hnumbers
  have hkeys : ∀ q, q ∈ greatest (max window 1) (numbers client rs)
      ↔ q ∈ ((recordAll window rs).session client).keys := by
    intro q
    rw [hsession, ← hnumbers]
    exact hrising.mem_greatest_iff
  have hfull : ∀ q, (max window 1 ≤ (numbers client rs).card
        ∧ ∀ a ∈ greatest (max window 1) (numbers client rs), q < a)
      ↔ (recordAll window rs).window ≤ ((recordAll window rs).session client).length
        ∧ ∀ a ∈ ((recordAll window rs).session client).keys, q < a := by
    intro q
    refine and_congr ?_ (forall_congr' fun a => imp_congr_left (hkeys a))
    rw [hwindow, hsession, Session.le_length_top_iff, ← hnumbers, hrising.card_keys]
  have hmem : ∀ q r, (q, r) ∈ (recordAll window rs).session client
      ↔ q ∈ greatest (max window 1) (numbers client rs) ∧ last? client q rs = some r := by
    intro q r
    rw [hkeys, hsession, hrising.mem_top_iff, hlast]
  have hlatest : ∀ k, (recordAll window rs).latest? client = some k
      ↔ IsGreatest (numbers client rs : Set Nat) k := by
    intro k
    unfold Sessions.latest?
    rw [hsession, Session.latest?_top (Nat.le_max_right window 1), hrising.latest?_eq_some_iff,
      hnumbers]
  exact
    { rising := hsound.rising client
      mem_iff := hmem
      applied_iff := fun q r => by
        rw [check_eq_applied_iff hsound, lookup_eq_some_iff_mem (hsound.rising client).nodup, hmem]
      stale_iff := fun q k => by
        rw [check_eq_stale_iff hsound, ← hfull, ← hlatest]
        rfl
      new_iff := fun q => by rw [check_eq_new_iff hsound, ← hfull, ← hkeys]
      latest_iff := hlatest }

/-- A request is stale if a full window of greater numbers was recorded. -/
theorem IsTopWindow.exists_stale_iff {window : Nat} (h : t.IsTopWindow window client rs)
    (hwindow : 1 ≤ window) : (∃ k, t.check client q = .stale k)
      ↔ window ≤ ((numbers client rs).filter fun a => q < a).card := by
  rw [← forall_greatest_lt_iff]
  constructor
  · rintro ⟨k, hk⟩
    exact ((h.stale_iff q k).1 hk).1
  · intro hold
    have hsome : (numbers client rs).Nonempty :=
      Finset.card_pos.1 (Nat.lt_of_lt_of_le hwindow hold.1)
    exact ⟨_, (h.stale_iff q _).2 ⟨hold, Finset.isGreatest_max' _ hsome⟩⟩

theorem IsTopWindow.ne_new {window : Nat} (h : t.IsTopWindow window client rs)
    (hq : q ∈ numbers client rs) : t.check client q ≠ .new := by
  intro hnew
  obtain ⟨hless, hyoung⟩ := (h.new_iff q).1 hnew
  rw [forall_greatest_lt_iff] at hyoung
  exact hless (Finset.mem_filter.2 ⟨hq, Nat.lt_of_not_le hyoung⟩)

/-- **The table is the top window.** Whatever was recorded, in any order of clients and sequence
numbers, a window of 0 counting as 1: of every client the table remembers the greatest numbers that
were recorded, as many as the window allows, with the results recorded last, and tells applied,
stale and new requests apart by them. So a number that was recorded is never new again, a stale one
stays stale, and what was recorded for other clients has no influence. -/
theorem top_window (window : Nat) (client : String) (rs : List Recording) :
    (recordAll window rs).IsTopWindow (max window 1) client rs
      ∧ (∀ q ∈ numbers client rs, ∀ more, (recordAll window (rs ++ more)).check client q ≠ .new)
      ∧ (∀ q k, (recordAll window rs).check client q = .stale k → ∀ more, ∃ k', k ≤ k'
        ∧ (recordAll window (rs ++ more)).check client q = .stale k')
      ∧ ∀ rs', ofClient client rs' = ofClient client rs →
        (recordAll window rs').session client = (recordAll window rs).session client
          ∧ ∀ q, (recordAll window rs').check client q = (recordAll window rs).check client q := by
  have hgrows : ∀ more, numbers client rs ⊆ numbers client (rs ++ more) := by
    intro more q hq
    unfold numbers ofClient at hq ⊢
    rw [List.filter_append, List.map_append, List.toFinset_append]
    exact Finset.mem_union_left _ hq
  have htop := isTopWindow_recordAll window client rs
  refine ⟨htop, fun q hq more => ?_, fun q k hk more => ?_, fun rs' hsame => ?_⟩
  · exact (isTopWindow_recordAll window client (rs ++ more)).ne_new (hgrows more hq)
  · have hlater := isTopWindow_recordAll window client (rs ++ more)
    have hmany := (htop.exists_stale_iff (Nat.le_max_right window 1)).1 ⟨k, hk⟩
    have hle := Finset.card_le_card (Finset.filter_subset_filter (fun a => q < a) (hgrows more))
    obtain ⟨k', hk'⟩ :=
      (hlater.exists_stale_iff (Nat.le_max_right window 1)).2 (Nat.le_trans hmany hle)
    have hk := ((htop.stale_iff q k).1 hk).2.1
    exact ⟨k', ((hlater.stale_iff q k').1 hk').2.2 (hgrows more hk), hk'⟩
  · have hsession : (recordAll window rs').session client
        = (recordAll window rs).session client := by
      rw [session_recordAll, session_recordAll, hsame]
    refine ⟨hsession, fun q => check_congr ?_ hsession⟩
    rw [window_recordAll, window_recordAll]

/-- What two clients had recorded. The number 3 came late, and then again. -/
def late : List Recording :=
  [⟨"c", 5, ⟨1, 1, [50]⟩⟩, ⟨"c", 3, ⟨1, 2, [30]⟩⟩, ⟨"d", 1, ⟨1, 3, [10]⟩⟩, ⟨"c", 9, ⟨2, 4, [90]⟩⟩,
    ⟨"c", 3, ⟨2, 5, [31]⟩⟩]

theorem top_window_of_late :
    (recordAll 2 late).check "c" 5 = .applied ⟨1, 1, [50]⟩
      ∧ (recordAll 2 late).check "c" 3 = .stale 9
      ∧ (recordAll 2 late).check "c" 7 = .new
      ∧ ∀ more, (recordAll 2 (late ++ more)).check "c" 5 ≠ .new
        ∧ ∃ k', 9 ≤ k' ∧ (recordAll 2 (late ++ more)).check "c" 3 = .stale k' := by
  obtain ⟨htop, hknown, hstale, -⟩ := top_window 2 "c" late
  have hold : (recordAll 2 late).check "c" 3 = .stale 9 := by decide
  exact ⟨(htop.applied_iff 5 _).2 (by decide), hold, (htop.new_iff 7).2 (by decide),
    fun more => ⟨hknown 5 (by decide) more, hstale 3 9 hold more⟩⟩

end Sessions

end Raft
