import Mathlib.Data.List.Pairwise
import Raft.Proofs.Log.Position
import Raft.Proofs.Apply.Sessions

/-!
# Applying a log again

What the state machine has recorded, and what the session table remembers, is determined by the
applied part of the log. So a node that starts again finds the table it had, with the results that
it gave before.

* `Replay.of w l`: what applying the entries of `l` comes to, with sessions of a window `w`.
* `Replay.named`: every remembered result names its entry, which the state machine has recorded.
* `Machine.Follows m w l k t`: a state machine and a table that applied the first `k` entries of `l`.
* `Machine.Follows.shrink` and `Machine.Follows.eq_of_rebuild` are what a restart rests on.
-/

namespace Raft

/-- A session table and what has reached the state machine with it. -/
structure Replay where
  sessions : Sessions
  applied : List Applied

namespace Replay

/-- An entry is applied: a command that is new reaches the state machine, which echoes it. -/
def step (x : Replay) (e : Entry) : Replay :=
  match e.payload with
  | .noop => x
  | .command c =>
    match x.sessions.check c.client c.sequence with
    | .new =>
      ⟨x.sessions.record c.client c.sequence ⟨e.term, e.index, c.data⟩,
        x.applied ++ [⟨e.index, e.term, c.data⟩]⟩
    | _ => x

/-- Entries are applied one after the other. -/
def of (window : Nat) (l : List Entry) : Replay := l.foldl step ⟨Sessions.empty window, []⟩

end Replay

variable {w k j : Nat} {l l' : List Entry} {e : Entry} {x : Replay} {c : Command} {a : Applied}
  {m : Machine} {t t' : Sessions}

/-- An entry that is not a new command is passed over when a table is rebuilt. -/
theorem Sessions.replay_old
    (h : ∀ c, e.payload = .command c → t.check c.client c.sequence ≠ .new) :
    Sessions.replay m t e = t := by
  unfold Sessions.replay
  cases hpayload : e.payload with
  | noop => rfl
  | command c =>
    dsimp only
    split
    · rename_i hnew
      exact absurd hnew (h c hpayload)
    · rfl

namespace Replay

theorem of_take_succ (he : entryAt l (k + 1) = some e) :
    of w (l.take (k + 1)) = (of w (l.take k)).step e := by
  unfold of
  rw [take_succ_of_entryAt he, List.foldl_append]
  rfl

/-- An entry either leaves everything as it is, or is a new command. -/
theorem step_cases (x : Replay) (e : Entry) :
    (x.step e = x ∧ ∀ c, e.payload = .command c →
        x.sessions.check c.client c.sequence ≠ .new)
      ∨ ∃ c, e.payload = .command c ∧ x.sessions.check c.client c.sequence = .new
      ∧ x.step e = ⟨x.sessions.record c.client c.sequence ⟨e.term, e.index, c.data⟩,
        x.applied ++ [⟨e.index, e.term, c.data⟩]⟩ := by
  cases hpayload : e.payload with
  | noop =>
    left
    unfold step
    rw [hpayload]
    exact ⟨rfl, nofun⟩
  | command c =>
    unfold step
    rw [hpayload]
    dsimp only
    by_cases hcheck : x.sessions.check c.client c.sequence = .new
    · rw [hcheck]
      exact Or.inr ⟨c, rfl, hcheck, rfl⟩
    · left
      constructor
      · split
        · rename_i hnew
          exact absurd hnew hcheck
        · rfl
      · rintro _ ⟨⟩
        exact hcheck

theorem step_new (hpayload : e.payload = .command c)
    (hcheck : x.sessions.check c.client c.sequence = .new) :
    x.step e = ⟨x.sessions.record c.client c.sequence ⟨e.term, e.index, c.data⟩,
      x.applied ++ [⟨e.index, e.term, c.data⟩]⟩ := by
  unfold step
  rw [hpayload]
  dsimp only
  rw [hcheck]

theorem step_old (h : ∀ c, e.payload = .command c → x.sessions.check c.client c.sequence ≠ .new) :
    x.step e = x := by
  rcases step_cases x e with ⟨hsame, -⟩ | ⟨c, hpayload, hcheck, -⟩
  · exact hsame
  · exact absurd hcheck (h c hpayload)

/-! ## What is recorded -/

theorem applied_prefix (hjk : j ≤ k) : (of w (l.take j)).applied <+: (of w (l.take k)).applied := by
  induction k with
  | zero =>
    obtain rfl : j = 0 := by omega
    exact List.prefix_rfl
  | succ k ih =>
    rcases Nat.lt_or_ge k j with hlt | hge
    · obtain rfl : j = k + 1 := by omega
      exact List.prefix_rfl
    · have hpre := ih hge
      rcases Nat.lt_or_ge k l.length with hk | hk
      · obtain ⟨e, he⟩ := exists_entryAt (Nat.succ_pos k) hk
        rw [of_take_succ he]
        rcases step_cases (of w (l.take k)) e with ⟨hsame, -⟩ | ⟨c, -, -, hstep⟩
        · rw [hsame]
          exact hpre
        · rw [hstep]
          exact hpre.trans (List.prefix_append _ _)
      · rw [take_succ_of_length_le hk]
        exact hpre

/-- What reached the state machine stands in the log, in the order of its indexes. -/
theorem recorded (hl : Positioned l) (k : Nat) :
    (∀ a ∈ (of w (l.take k)).applied, 0 < a.index ∧ a.index ≤ k)
      ∧ (of w (l.take k)).applied.Pairwise fun a b => a.index < b.index := by
  induction k with
  | zero =>
    refine ⟨?_, List.Pairwise.nil⟩
    intro a ha
    cases ha
  | succ k ih =>
    obtain ⟨hbound, hrising⟩ := ih
    have hbound' : ∀ a ∈ (of w (l.take k)).applied, 0 < a.index ∧ a.index ≤ k + 1 := by
      intro a ha
      have := hbound a ha
      omega
    rcases Nat.lt_or_ge k l.length with hk | hk
    · obtain ⟨e, he⟩ := exists_entryAt (Nat.succ_pos k) hk
      have hindex := hl _ _ he
      rw [of_take_succ he]
      -- an entry adds at most itself, and stands behind all that came before
      rcases step_cases (of w (l.take k)) e with ⟨hsame, -⟩ | ⟨c, -, -, hstep⟩
      · rw [hsame]
        exact ⟨hbound', hrising⟩
      · rw [hstep]
        constructor
        · intro a ha
          rcases List.mem_append.1 ha with hold | hnew
          · exact hbound' a hold
          · rw [List.mem_singleton.1 hnew]
            dsimp only
            omega
        · rw [List.pairwise_append]
          refine ⟨hrising, List.pairwise_singleton _ _, ?_⟩
          intro a ha b hb
          rw [List.mem_singleton.1 hb]
          have := hbound a ha
          dsimp only
          omega
    · rw [take_succ_of_length_le hk]
      exact ⟨hbound', hrising⟩

/-- What the table says of a request: the place of its entry, and what the state machine answered. -/
structure Names (l : List Entry) (applied : List Applied) (client : String) (sequence : Nat)
    (r : CommitResult) : Prop where
  entry : entryAt l r.index = some ⟨r.index, r.term, .command ⟨client, sequence, r.result⟩⟩
  applied : ⟨r.index, r.term, r.result⟩ ∈ applied

/-- Every remembered result names its entry. -/
theorem named (hl : Positioned l) (k : Nat) :
    (of w (l.take k)).sessions.Each (Names l (of w (l.take k)).applied) := by
  induction k with
  | zero => exact Sessions.each_empty w
  | succ k ih =>
    rcases Nat.lt_or_ge k l.length with hk | hk
    · obtain ⟨e, he⟩ := exists_entryAt (Nat.succ_pos k) hk
      have hindex := hl _ _ he
      rw [of_take_succ he]
      rcases step_cases (of w (l.take k)) e with ⟨hsame, -⟩ | ⟨c, hpayload, -, hstep⟩
      · rw [hsame]
        exact ih
      · rw [hstep]
        apply Sessions.Each.record
        · refine Sessions.Each.mono ih ?_
          intro client sequence r hr
          exact ⟨hr.entry, List.mem_append_left _ hr.applied⟩
        · refine ⟨?_, List.mem_append_right _ (List.mem_singleton_self _)⟩
          rw [← hindex] at he
          rw [he]
          cases e
          cases hpayload
          rfl
    · rw [take_succ_of_length_le hk]
      exact ih

end Replay

/-! ## State machines -/

namespace Machine

/-- A state machine, with a session table, that has applied the first entries of a log. -/
structure Follows (m : Machine) (window : Nat) (l : List Entry) (k : Nat) (t : Sessions) :
    Prop where
  replay : Replay.of window (l.take k) = ⟨t, m.applied⟩
  last : m.last = (m.applied.getLast?.map Applied.index).getD 0
  remembers : m.forgetful = false

theorem Follows.sessions_eq (h : m.Follows w l k t) : (Replay.of w (l.take k)).sessions = t := by
  rw [h.replay]

theorem Follows.applied_eq (h : m.Follows w l k t) :
    (Replay.of w (l.take k)).applied = m.applied := by
  rw [h.replay]

theorem follows_fresh (window : Nat) (l : List Entry) (broken : Bool) :
    ({ broken } : Machine).Follows window l 0 (Sessions.empty window) :=
  ⟨rfl, rfl, rfl⟩

theorem Follows.log (h : m.Follows w l k t) (hl : l'.take k = l.take k) : m.Follows w l' k t := by
  refine ⟨?_, h.last, h.remembers⟩
  rw [hl]
  exact h.replay

theorem Follows.congr (h : m.Follows w l k t) {m' : Machine} (happlied : m'.applied = m.applied)
    (hlast : m'.last = m.last) (hforgetful : m'.forgetful = m.forgetful) :
    m'.Follows w l k t := by
  refine ⟨?_, ?_, hforgetful.trans h.remembers⟩
  · rw [happlied]
    exact h.replay
  · rw [happlied, hlast]
    exact h.last

theorem Follows.skip (h : m.Follows w l k t) (he : entryAt l (k + 1) = some e)
    (hold : ∀ c, e.payload = .command c → t.check c.client c.sequence ≠ .new) :
    m.Follows w l (k + 1) t := by
  refine ⟨?_, h.last, h.remembers⟩
  rw [Replay.of_take_succ he, h.replay]
  exact Replay.step_old hold

theorem Follows.apply (h : m.Follows w l k t) (he : entryAt l (k + 1) = some e)
    (hpayload : e.payload = .command c) (hnew : t.check c.client c.sequence = .new)
    {m' : Machine} {output : Bytes} (happly : m.apply e.index e.term c.data = .ok (m', output)) :
    output = c.data ∧ m'.applied = m.applied ++ [⟨e.index, e.term, c.data⟩]
      ∧ m'.Follows w l (k + 1) (t.record c.client c.sequence ⟨e.term, e.index, output⟩) := by
  obtain ⟨rfl, rfl⟩ := eq_of_apply_eq_ok happly
  refine ⟨rfl, rfl, ?_, ?_, h.remembers⟩
  · rw [Replay.of_take_succ he, h.replay, Replay.step_new hpayload hnew]
  · simp

/-- An entry beyond the last one that reached the state machine changed nothing. -/
theorem Follows.pred (h : m.Follows w l (k + 1) t) (hl : Positioned l) (hlast : m.last ≤ k) :
    m.Follows w l k t := by
  refine ⟨?_, h.last, h.remembers⟩
  rcases Nat.lt_or_ge k l.length with hk | hk
  · obtain ⟨e, he⟩ := exists_entryAt (Nat.succ_pos k) hk
    have hreplay := h.replay
    rw [Replay.of_take_succ he] at hreplay
    rcases Replay.step_cases (Replay.of w (l.take k)) e with ⟨hsame, -⟩ | ⟨c, -, -, hstep⟩
    · rw [← hsame]
      exact hreplay
    · -- its command would be the last one
      have happlied : (Replay.of w (l.take k)).applied ++ [⟨e.index, e.term, c.data⟩] = m.applied :=
        congrArg Replay.applied (hstep.symm.trans hreplay)
      have hend := h.last
      rw [← happlied] at hend
      have hindex := hl _ _ he
      simp only [List.getLast?_append, List.getLast?_singleton, Option.some_or, Option.map_some,
        Option.getD_some] at hend
      omega
  · have hreplay := h.replay
    rwa [take_succ_of_length_le hk] at hreplay

/-- **What was applied ends with the last command.** -/
theorem Follows.shrink (h : m.Follows w l k t) (hl : Positioned l) (hlast : m.last ≤ k) :
    m.Follows w l m.last t := by
  obtain ⟨d, rfl⟩ := Nat.exists_eq_add_of_le hlast
  induction d with
  | zero => exact h
  | succ d ih => exact ih (h.pred hl (Nat.le_add_right _ _)) (Nat.le_add_right _ _)

theorem Follows.output?_of_mem (h : m.Follows w l k t) (hl : Positioned l) (ha : a ∈ m.applied) :
    m.output? a.index = some a.data := by
  have hrising := (Replay.recorded (w := w) hl k).2
  rw [h.applied_eq] at hrising
  have hfind : m.applied.find? (fun b => b.index = a.index) = some a := by
    cases hfound : m.applied.find? (fun b => b.index = a.index) with
    | none =>
      have := List.find?_eq_none.1 hfound a ha
      simp at this
    | some b =>
      have hindex : b.index = a.index := by simpa using List.find?_some hfound
      have hb := List.mem_of_find?_eq_some hfound
      -- indexes rise, so that the same index is the same command
      by_contra hne
      have hne' : b ≠ a := fun heq => hne (congrArg some heq)
      have hdistinct : m.applied.Pairwise fun a b => a ≠ b → a.index ≠ b.index := by
        apply hrising.imp
        intro a b hlt _
        exact Nat.ne_of_lt hlt
      have hflip : m.applied.Pairwise (flip fun a b => a ≠ b → a.index ≠ b.index) := by
        apply hrising.imp
        intro a b hlt _
        exact Nat.ne_of_gt hlt
      exact hdistinct.forall_of_forall_of_flip (fun _ _ hself => absurd rfl hself) hflip hb ha hne'
        hindex
  unfold output?
  rw [h.remembers, if_neg Bool.false_ne_true, hfind]
  rfl

/-- While it is rebuilt, the table goes through the states that it had. -/
theorem Follows.rebuilt (h : m.Follows w l k t) (hl : Positioned l) (hjk : j ≤ k) :
    (l.take j).foldl (Sessions.replay m) (Sessions.empty w)
      = (Replay.of w (l.take j)).sessions := by
  induction j with
  | zero => rfl
  | succ j ih =>
    rcases Nat.lt_or_ge j l.length with hj | hj
    · obtain ⟨e, he⟩ := exists_entryAt (Nat.succ_pos j) hj
      have hpre : (Replay.of w (l.take (j + 1))).applied <+: m.applied := by
        rw [← h.applied_eq]
        exact Replay.applied_prefix hjk
      rw [Replay.of_take_succ he] at hpre ⊢
      rw [take_succ_of_entryAt he, List.foldl_append, ih (by omega)]
      show Sessions.replay m (Replay.of w (l.take j)).sessions e = _
      rcases Replay.step_cases (Replay.of w (l.take j)) e with
        ⟨hsame, hold⟩ | ⟨c, hpayload, hnew, hstep⟩
      · rw [hsame]
        exact Sessions.replay_old hold
      · -- the state machine ran the command once, and recalls its output
        rw [hstep] at hpre ⊢
        have hmem : (⟨e.index, e.term, c.data⟩ : Applied) ∈ m.applied :=
          hpre.mem (List.mem_append_right _ (List.mem_singleton_self _))
        have houtput : m.output? e.index = some c.data := h.output?_of_mem hl hmem
        unfold Sessions.replay
        rw [hpayload]
        dsimp only
        rw [hnew, houtput]
        rfl
    · rw [take_succ_of_length_le hj]
      exact ih (by omega)

/-- **A rebuilt table is the one that was.** -/
theorem Follows.eq_of_rebuild {log : Log} (h : m.Follows w log.entries m.last t)
    (hl : Positioned log.entries) (hrebuild : Sessions.rebuild w log m m.last = .ok t') :
    t' = t := by
  unfold Sessions.rebuild at hrebuild
  split at hrebuild
  · rename_i hlast
    rw [hlast] at h
    rw [← Except.ok.inj hrebuild]
    exact h.sessions_eq
  · change (log.range 1 m.last).map _ = _ at hrebuild
    unfold Log.range at hrebuild
    split at hrebuild
    · cases hrebuild
    · rw [← Except.ok.inj hrebuild]
      unfold Log.slice
      have hfold := h.rebuilt hl (Nat.le_refl _)
      rw [h.sessions_eq] at hfold
      exact hfold

/-- What was applied determines the state machine and the table. -/
theorem Follows.unique {m' : Machine} (h : m.Follows w l k t) (h' : m'.Follows w l k t')
    (hrefuses : ∀ i, m.refuses i = false) (hrefuses' : ∀ i, m'.refuses i = false) :
    m = m' ∧ t = t' := by
  have hreplay := h.replay.symm.trans h'.replay
  have happlied : m.applied = m'.applied := congrArg Replay.applied hreplay
  have hlast : m.last = m'.last := by rw [h.last, h'.last, happlied]
  have hforgetful : m.forgetful = m'.forgetful := h.remembers.trans h'.remembers.symm
  -- a state machine that refuses no index is neither broken nor made to fail
  have hworks : ∀ x : Machine, (∀ i, x.refuses i = false) → x.broken = false ∧ x.failing = [] := by
    intro x hx
    unfold refuses at hx
    simp only [Bool.or_eq_false_iff] at hx
    refine ⟨(hx 0).1, List.eq_nil_iff_forall_not_mem.2 fun i hi => ?_⟩
    simpa [hi] using (hx i).2
  obtain ⟨hbroken, hfailing⟩ := hworks m hrefuses
  obtain ⟨hbroken', hfailing'⟩ := hworks m' hrefuses'
  refine ⟨?_, congrArg Replay.sessions hreplay⟩
  cases m
  cases m'
  simp_all

end Machine

end Raft
