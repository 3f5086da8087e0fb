import Mathlib.Data.List.Basic
import Raft.Log.Basic
import Raft.Apply.Sessions
import Raft.Proofs.Lookup

/-!
# What sessions never forget

A session remembers only as many results as its window allows, and yet no request that was recorded
counts as new again: a sequence number that leaves the window is below everything that stays.

* `Session.Recalls w s q`: a session with the window `w` knows that `q` is not new.
* `Sessions.Recalls t e`: the command of an entry is not new to the table.
* `Sessions.Recalls.record`: what a table recalls it recalls after any further record.
* `Sessions.Each t P`: every remembered result is of a kind.
* `Sessions.rebuild_recalls`: a rebuilt table recalls the whole prefix of the log it was built from.
-/

namespace Raft

namespace Session

def keys (s : Session) : List Nat := s.map Prod.fst

/-- The sequence numbers are in order. -/
def Rising (s : Session) : Prop := s.keys.Pairwise (· < ·)

/-- The sequence number is remembered, or below everything that a full session remembers. -/
def Recalls (window : Nat) (s : Session) (q : Nat) : Prop :=
  q ∈ s.keys ∨ window ≤ s.length ∧ ∀ k ∈ s.keys, q < k

variable {s : Session} {window q k : Nat} {r : CommitResult}

theorem lookup_eq_none_iff : s.lookup q = none ↔ q ∉ s.keys := by
  unfold keys
  rw [List.lookup_eq_none_iff, List.mem_map]
  constructor
  · rintro hne ⟨a, ha, rfl⟩
    simpa using hne a ha
  · intro hnot a ha
    rw [bne_iff_ne]
    rintro rfl
    exact hnot ⟨a, ha, rfl⟩

theorem mem_keys_of_lookup (h : s.lookup q = some r) : q ∈ s.keys :=
  List.mem_map_of_mem (mem_of_lookup h)

theorem exists_latest (x : Nat × CommitResult) (rest : Session) :
    ∃ latest, latest? (x :: rest) = some latest := by
  unfold latest?
  rw [List.getLast?_cons]
  exact ⟨_, rfl⟩

/-- The first number of a session is its least. -/
theorem Rising.lt_keys_iff {oldest : Nat} {old : CommitResult}
    (h : Rising ((oldest, old) :: s)) : (∀ k ∈ keys ((oldest, old) :: s), q < k) ↔ q < oldest := by
  unfold Rising keys at h
  rw [List.map_cons, List.pairwise_cons] at h
  refine ⟨fun hall => hall oldest (List.mem_cons_self ..), fun hlt k hk => ?_⟩
  rcases List.mem_cons.1 hk with rfl | hk
  · exact hlt
  · exact Nat.lt_trans hlt (h.1 k hk)

theorem mem_keys_put : q ∈ (put k r s).keys ↔ q = k ∨ q ∈ s.keys := by
  unfold keys
  induction s with
  | nil => simp [put]
  | cons x s ih =>
    obtain ⟨a, old⟩ := x
    unfold put
    split
    · rw [List.map_cons, List.mem_cons, ih, List.map_cons, List.mem_cons]
      tauto
    · split
      · rename_i h
        rw [h]
        simp
      · simp

theorem Rising.put (h : s.Rising) : (Session.put k r s).Rising := by
  unfold Rising keys at *
  induction s with
  | nil => simp [Session.put]
  | cons x s ih =>
    obtain ⟨a, old⟩ := x
    rw [List.map_cons, List.pairwise_cons] at h
    unfold Session.put
    split
    · rename_i hak
      rw [List.map_cons, List.pairwise_cons]
      refine ⟨fun b hb => ?_, ih h.2⟩
      rcases mem_keys_put.1 hb with rfl | hb
      · exact hak
      · exact h.1 b hb
    · split
      · rename_i hka
        rw [List.map_cons, List.pairwise_cons, ← hka]
        exact h
      · rename_i h1 h2
        have hka : k < a := by omega
        rw [List.map_cons, List.pairwise_cons]
        refine ⟨fun b hb => ?_, List.pairwise_cons.2 h⟩
        rcases List.mem_cons.1 hb with rfl | hb
        · exact hka
        · exact Nat.lt_trans hka (h.1 b hb)

theorem Rising.drop (h : s.Rising) (n : Nat) : Rising (s.drop n) :=
  h.sublist ((List.drop_sublist n s).map Prod.fst)

theorem length_le_put : s.length ≤ (put k r s).length := by
  induction s with
  | nil => exact Nat.zero_le _
  | cons x s ih =>
    obtain ⟨a, old⟩ := x
    unfold put
    split
    · exact Nat.succ_le_succ ih
    · split <;> simp

theorem put_eq_cons (h : ∀ a ∈ s.keys, k < a) : put k r s = (k, r) :: s := by
  cases s with
  | nil => rfl
  | cons x s =>
    obtain ⟨a, old⟩ := x
    have hka : k < a := h a (List.mem_cons_self ..)
    unfold put
    rw [if_neg (by omega), if_neg (by omega)]

theorem Recalls.trim (hs : s.Rising) (h : s.Recalls window q) :
    Recalls window (s.drop (s.length - window)) q := by
  have hkeys : s.keys = keys (s.take (s.length - window)) ++ keys (s.drop (s.length - window)) := by
    unfold keys
    rw [← List.map_append, List.take_append_drop]
  rcases h with hmem | ⟨hlen, hlt⟩
  · rw [hkeys] at hmem
    rcases List.mem_append.1 hmem with htake | hdrop
    · -- what leaves the window is below what stays
      have hpos : 0 < s.length - window := by
        rcases Nat.eq_zero_or_pos (s.length - window) with h0 | hpos
        · rw [h0] at htake
          simp [keys] at htake
        · exact hpos
      unfold Rising at hs
      rw [hkeys, List.pairwise_append] at hs
      refine Or.inr ⟨?_, fun a ha => hs.2.2 q htake a ha⟩
      rw [List.length_drop]
      omega
    · exact Or.inl hdrop
  · refine Or.inr ⟨?_, fun a ha => hlt a ?_⟩
    · rw [List.length_drop]
      omega
    · rw [hkeys]
      exact List.mem_append_right _ ha

/-- A number that is recalled is recalled after another result was put in and the session trimmed. -/
theorem Recalls.put (hs : s.Rising) (h : s.Recalls window q) :
    Recalls window ((Session.put k r s).drop ((Session.put k r s).length - window)) q := by
  rcases h with hmem | ⟨hlen, hlt⟩
  · exact Recalls.trim hs.put (Or.inl (mem_keys_put.2 (Or.inr hmem)))
  · rcases Nat.lt_trichotomy q k with hqk | rfl | hkq
    · refine Recalls.trim hs.put (Or.inr ⟨Nat.le_trans hlen length_le_put, fun a ha => ?_⟩)
      rcases mem_keys_put.1 ha with rfl | ha
      · exact hqk
      · exact hlt a ha
    · exact Recalls.trim hs.put (Or.inl (mem_keys_put.2 (Or.inl rfl)))
    · -- the new number is itself the one that leaves a full session
      rw [put_eq_cons fun a ha => Nat.lt_trans hkq (hlt a ha), List.length_cons,
        show s.length + 1 - window = (s.length - window) + 1 by omega, List.drop_succ_cons]
      exact Recalls.trim hs (Or.inr ⟨hlen, hlt⟩)

theorem mem_put {x : Nat × CommitResult} (h : x ∈ put k r s) : x = (k, r) ∨ x ∈ s := by
  induction s with
  | nil => exact Or.inl (List.mem_singleton.1 h)
  | cons y s ih =>
    obtain ⟨a, old⟩ := y
    unfold put at h
    split at h
    · rcases List.mem_cons.1 h with rfl | hmem
      · exact Or.inr (List.mem_cons_self ..)
      · exact (ih hmem).imp_right (List.mem_cons_of_mem _)
    · split at h
      · exact (List.mem_cons.1 h).imp_right (List.mem_cons_of_mem _)
      · exact List.mem_cons.1 h

end Session

namespace Sessions

/-- A table as records leave it: it has room for a result, and every session is in order. -/
structure Sound (t : Sessions) : Prop where
  window : 1 ≤ t.window
  rising : ∀ client, (t.session client).Rising

/-- The command of an entry is not new to the table. -/
def Recalls (t : Sessions) (e : Entry) : Prop :=
  ∀ c, e.payload = .command c → t.check c.client c.sequence ≠ .new

variable {t : Sessions} {client other : String} {sequence q : Nat} {r : CommitResult} {e x : Entry}
  {machine : Machine}

/-- A table gives the result of a number that is remembered. Of the others it takes those for stale
that are below everything a full session remembers, and the rest for new. -/
theorem check_cases (h : t.Sound) (client : String) (q : Nat) :
    (∃ r, (t.session client).lookup q = some r ∧ t.check client q = .applied r)
      ∨ q ∉ (t.session client).keys
        ∧ ((t.window ≤ (t.session client).length ∧ ∀ k ∈ (t.session client).keys, q < k)
            ∧ (∃ latest, (t.session client).latest? = some latest
              ∧ t.check client q = .stale latest)
          ∨ ¬ (t.window ≤ (t.session client).length ∧ ∀ k ∈ (t.session client).keys, q < k)
            ∧ t.check client q = .new) := by
  have hwindow := h.window
  have hrising := h.rising client
  unfold check
  generalize t.session client = s at hrising ⊢
  dsimp only
  cases hlookup : s.lookup q with
  | some r => exact Or.inl ⟨r, rfl, rfl⟩
  | none =>
    refine Or.inr ⟨Session.lookup_eq_none_iff.1 hlookup, ?_⟩
    cases s with
    | nil =>
      have hfull : ¬ t.window ≤ 0 := by omega
      right
      simp [hfull]
    | cons x rest =>
      obtain ⟨oldest, old⟩ := x
      obtain ⟨latest, hlatest⟩ := Session.exists_latest (oldest, old) rest
      rw [hrising.lt_keys_iff, hlatest, List.head?_cons]
      dsimp only
      split
      · rename_i hfull
        split
        · rename_i hlt
          exact Or.inl ⟨⟨hfull, hlt⟩, latest, rfl, rfl⟩
        · rename_i hlt
          exact Or.inr ⟨fun h => hlt h.2, rfl⟩
      · rename_i hfull
        exact Or.inr ⟨fun h => hfull h.1, rfl⟩

theorem check_ne_new_iff (h : t.Sound) :
    t.check client q ≠ .new ↔ (t.session client).Recalls t.window q := by
  unfold Session.Recalls
  rcases check_cases h client q with ⟨r, hr, hcheck⟩ | ⟨hnot, ⟨hold, k, -, hcheck⟩ | ⟨hnew, hcheck⟩⟩
  · rw [hcheck]
    exact ⟨fun _ => Or.inl (Session.mem_keys_of_lookup hr), fun _ => nofun⟩
  · rw [hcheck]
    exact ⟨fun _ => Or.inr hold, fun _ => nofun⟩
  · rw [hcheck]
    exact ⟨fun hne => absurd rfl hne, fun hrecalls => absurd (hrecalls.resolve_left hnot) hnew⟩

/-! ## Records -/

theorem lookup_setSession (l : List (String × Session)) (s : Session) :
    (setSession client s l).lookup other
      = if other = client then some s else l.lookup other := by
  induction l with
  | nil =>
    unfold setSession
    rw [List.lookup_cons]
    split <;> simp_all
  | cons x l ih =>
    obtain ⟨c, old⟩ := x
    unfold setSession
    split
    · rename_i hc
      rw [List.lookup_cons, List.lookup_cons, hc]
      split <;> simp_all
    · rename_i hc
      rw [List.lookup_cons, List.lookup_cons, ih]
      split
      · rename_i hother
        rw [beq_iff_eq] at hother
        rw [if_neg (by rw [hother]; exact hc)]
      · rfl

theorem session_record (t : Sessions) (client other : String) (sequence : Nat) (r : CommitResult) :
    (t.record client sequence r).session other
      = if other = client then
          ((t.session client).put sequence r).drop
            (((t.session client).put sequence r).length - t.window)
        else t.session other := by
  unfold record session
  rw [lookup_setSession]
  split <;> rfl

theorem sound_empty (window : Nat) : (empty window).Sound where
  window := Nat.le_max_right window 1
  rising _ := List.Pairwise.nil

theorem Sound.record (h : t.Sound) : (t.record client sequence r).Sound where
  window := h.window
  rising other := by
    rw [session_record]
    split
    · exact Session.Rising.drop (h.rising client).put _
    · exact h.rising other

/-- **A table never takes a request for new again.** -/
theorem Recalls.record (h : t.Sound) (hx : t.Recalls x) :
    (t.record client sequence r).Recalls x := by
  intro c hc
  have hold := (check_ne_new_iff h).1 (hx c hc)
  refine (check_ne_new_iff h.record).2 ?_
  rw [session_record]
  split
  · rename_i hclient
    rw [hclient] at hold
    exact hold.put (h.rising client)
  · exact hold

theorem recalls_record_self (h : t.Sound) :
    (t.record client sequence r).check client sequence ≠ .new := by
  refine (check_ne_new_iff h.record).2 ?_
  rw [session_record, if_pos rfl]
  exact Session.Recalls.trim (h.rising client).put (Or.inl (Session.mem_keys_put.2 (Or.inl rfl)))

/-! ## What is remembered -/

/-- Every result that is remembered under a sequence number of a client is of a kind. -/
def Each (t : Sessions) (P : String → Nat → CommitResult → Prop) : Prop :=
  ∀ client, ∀ x ∈ t.session client, P client x.1 x.2

section Each

variable {P P' : String → Nat → CommitResult → Prop}

theorem each_empty (window : Nat) : (empty window).Each P := by
  intro client x hx
  cases hx

theorem Each.mono (h : t.Each P) (hP : ∀ client q r, P client q r → P' client q r) : t.Each P' :=
  fun client x hx => hP client x.1 x.2 (h client x hx)

theorem Each.record (h : t.Each P) (hr : P client sequence r) :
    (t.record client sequence r).Each P := by
  intro other x hx
  rw [session_record] at hx
  by_cases hother : other = client
  · rw [if_pos hother] at hx
    rw [hother]
    rcases Session.mem_put (List.mem_of_mem_drop hx) with rfl | hold
    · exact hr
    · exact h client x hold
  · rw [if_neg hother] at hx
    exact h other x hx

theorem Each.of_check (h : t.Each P) (hcheck : t.check client sequence = .applied r) :
    P client sequence r := by
  unfold check at hcheck
  dsimp only at hcheck
  split at hcheck
  · rename_i found hlookup
    obtain rfl := SessionCheck.applied.inj hcheck
    exact h client (sequence, found) (mem_of_lookup hlookup)
  · -- a request that is not remembered is new or stale
    split at hcheck
    · split at hcheck
      · split at hcheck <;> cases hcheck
      · cases hcheck
    · cases hcheck

end Each

/-! ## Rebuilding -/

theorem Sound.replay (h : t.Sound) : (Sessions.replay machine t e).Sound := by
  unfold Sessions.replay
  split
  · exact h
  · split
    · exact h.record
    · exact h

theorem Recalls.replay (h : t.Sound) (hx : t.Recalls x) :
    (Sessions.replay machine t e).Recalls x := by
  unfold Sessions.replay
  split
  · exact hx
  · split
    · exact hx.record h
    · exact hx

theorem recalls_replay_self (h : t.Sound) : (replay machine t e).Recalls e := by
  intro c hc
  unfold replay
  rw [hc]
  dsimp only
  split
  · exact recalls_record_self h
  · rename_i hnew
    exact hnew

theorem replayAll (machine : Machine) (h : t.Sound) (entries : List Entry) :
    (entries.foldl (replay machine) t).Sound
      ∧ (∀ x, t.Recalls x → (entries.foldl (replay machine) t).Recalls x)
      ∧ ∀ x ∈ entries, (entries.foldl (replay machine) t).Recalls x := by
  induction entries generalizing t with
  | nil => exact ⟨h, fun _ hx => hx, nofun⟩
  | cons e rest ih =>
    have hreplay : (replay machine t e).Sound := h.replay
    obtain ⟨hsound, hkept, hnew⟩ := ih hreplay
    refine ⟨hsound, fun x hx => hkept x (hx.replay h), fun x hx => ?_⟩
    rcases List.mem_cons.1 hx with rfl | hx
    · exact hkept x (recalls_replay_self h)
    · exact hnew x hx

theorem rebuild_recalls {window last : Nat} {log : Log}
    (h : rebuild window log machine last = .ok t) :
    t.Sound ∧ ∀ e ∈ log.entries.take last, t.Recalls e := by
  unfold rebuild at h
  split at h
  · rename_i hlast
    obtain rfl := Except.ok.inj h
    refine ⟨sound_empty window, ?_⟩
    rw [hlast]
    simp
  · change (log.range 1 last).map _ = _ at h
    unfold Log.range at h
    split at h
    · cases h
    · obtain rfl := Except.ok.inj h
      obtain ⟨hsound, -, hnew⟩ := replayAll machine (sound_empty window) (log.slice 1 last)
      refine ⟨hsound, fun e he => hnew e ?_⟩
      unfold Log.slice
      simpa using he

end Sessions

end Raft
