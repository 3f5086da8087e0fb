import Raft.Apply.Applier
import Raft.Proofs.Action
import Raft.Proofs.Log.Position
import Raft.Proofs.Apply.Sessions

/-!
# What the apply loop keeps

The loop applies committed entries in log order, so that its session table recalls everything up to
the last applied index, and remembers nothing else. That holds through failures, which end the loop
between two entries.

* `Applier.Sound a l commit`: the state of a loop beside a log that is committed up to an index.
* `Applier.Executed a e r b`: all that the execution of an entry can do; `Applier.Refused a e f`: how
  it fails.
* `Applier.process_ensures`: what every entry keeps, a round keeps, however it ends. A round that
  succeeds goes as far as `Applier.reach` says, and `Applier.Halted` says how one fails.
* `Applier.Sound.log`, `Applier.Sound.mono`: so does what a node does to its log and commit index.
-/

namespace Raft

/-- A result names the place of a request in the first entries of a log. -/
def Stands (l : List Entry) (k : Nat) (client : String) (sequence : Nat) (r : CommitResult) : Prop :=
  r.index ≤ k
    ∧ ∃ data, entryAt l r.index = some ⟨r.index, r.term, .command ⟨client, sequence, data⟩⟩

variable {l l' : List Entry} {k j commit i : Nat} {e : Entry}

theorem Stands.mono {client : String} {sequence : Nat} {r : CommitResult}
    (h : Stands l k client sequence r) (hkj : k ≤ j) : Stands l j client sequence r :=
  ⟨Nat.le_trans h.1 hkj, h.2⟩

theorem Stands.log {client : String} {sequence : Nat} {r : CommitResult}
    (h : Stands l k client sequence r) (hl : l'.take k = l.take k) :
    Stands l' k client sequence r := by
  obtain ⟨hle, data, he⟩ := h
  refine ⟨hle, data, ?_⟩
  rw [entryAt_congr hl hle]
  exact he

theorem stands_self {c : Command} {output : Bytes} (he : entryAt l e.index = some e)
    (hpayload : e.payload = .command c) (hk : e.index ≤ k) :
    Stands l k c.client c.sequence ⟨e.term, e.index, output⟩ := by
  refine ⟨hk, c.data, ?_⟩
  rw [he]
  cases e
  cases hpayload
  rfl

namespace Applier

/-- An apply loop beside a log that is committed up to an index. -/
structure Sound (a : Applier) (l : List Entry) (commit : Nat) : Prop where
  told : a.commit ≤ commit
  applied : a.lastApplied ≤ commit
  last : a.machine.last ≤ a.lastApplied
  sessions : a.sessions.Sound
  /-- What was applied is not new to the table. -/
  recalls : ∀ e ∈ l.take a.lastApplied, a.sessions.Recalls e
  /-- What the table remembers was applied. -/
  remembers : a.sessions.Each (Stands l a.lastApplied)

variable {a b : Applier} {r : Option CommitResult}

theorem take_applied (ha : a.lastApplied ≤ commit) (hl : l'.take commit = l.take commit) :
    l'.take a.lastApplied = l.take a.lastApplied := by
  rw [← Nat.min_eq_left ha, ← List.take_take, hl, List.take_take]

theorem Sound.log (h : a.Sound l commit) (hl : l'.take commit = l.take commit) :
    a.Sound l' commit := by
  have htake := take_applied h.applied hl
  refine { h with recalls := ?_, remembers := ?_ }
  · rw [htake]
    exact h.recalls
  · refine Sessions.Each.mono h.remembers ?_
    intro client sequence x hx
    exact hx.log htake

theorem Sound.mono (h : a.Sound l commit) (hle : commit ≤ i) : a.Sound l i :=
  { h with
    told := Nat.le_trans h.told hle
    applied := Nat.le_trans h.applied hle }

theorem Sound.signal (h : a.Sound l commit) (hi : i ≤ commit) : (a.signal i).Sound l commit :=
  { h with told := Nat.max_le.2 ⟨h.told, hi⟩ }

/-- A rebuilt table remembers only what stands in the log. -/
theorem rebuild_remembers {window last : Nat} {log : Log} {machine : Machine} {t : Sessions}
    (hl : Positioned log.entries) (h : Sessions.rebuild window log machine last = .ok t) :
    t.Each (Stands log.entries last) := by
  -- every entry that is replayed stands in the log, so what it records does
  have hall : ∀ (entries : List Entry) (t : Sessions), t.Each (Stands log.entries last) →
      (∀ e ∈ entries, entryAt log.entries e.index = some e ∧ e.index ≤ last) →
      (entries.foldl (Sessions.replay machine) t).Each (Stands log.entries last) := by
    intro entries
    induction entries with
    | nil => exact fun t ht _ => ht
    | cons e rest ih =>
      intro t ht hentries
      apply ih
      · obtain ⟨he, hle⟩ := hentries e (List.mem_cons_self ..)
        unfold Sessions.replay
        split
        · exact ht
        · rename_i c hpayload
          split
          · exact ht.record (stands_self he hpayload hle)
          · exact ht
      · exact fun x hx => hentries x (List.mem_cons_of_mem _ hx)
  unfold Sessions.rebuild at h
  split at h
  · rw [← Except.ok.inj h]
    exact Sessions.each_empty window
  · change (log.range 1 last).map _ = _ at h
    unfold Log.range at h
    split at h
    · cases h
    · -- the entries that are read are the first ones of the log
      rw [← Except.ok.inj h]
      apply hall _ _ (Sessions.each_empty window)
      intro e he
      unfold Log.slice at he
      rw [show max 1 1 - 1 = 0 from rfl, List.drop_zero] at he
      obtain ⟨i, hi⟩ := List.mem_iff_getElem?.1 he
      rw [List.getElem?_take] at hi
      split at hi
      · have hentry : entryAt log.entries (i + 1) = some e := by rwa [entryAt_succ]
        have hindex := hl _ _ hentry
        rw [← hindex] at hentry
        exact ⟨hentry, by omega⟩
      · cases hi

/-! ## One entry -/

/-- What the execution of an entry does. -/
inductive Executed (a : Applier) (e : Entry) : Option CommitResult → Applier → Prop
  /-- The entry is not a new command. It has the result of one that was applied before. -/
  | passed (r : Option CommitResult)
      (hold : ∀ c, e.payload = .command c → a.sessions.check c.client c.sequence ≠ .new)
      (hr : ∀ x, r = some x → ∃ c, e.payload = .command c
        ∧ a.sessions.check c.client c.sequence = .applied x) :
    Executed a e r a
  /-- A new command reaches the state machine. -/
  | ran (c : Command) (machine : Machine) (output : Bytes) (hpayload : e.payload = .command c)
      (hnew : a.sessions.check c.client c.sequence = .new)
      (happly : a.machine.apply e.index e.term c.data = .ok (machine, output)) :
    Executed a e (some ⟨e.term, e.index, output⟩)
      { a with
        machine
        sessions := a.sessions.record c.client c.sequence ⟨e.term, e.index, output⟩ }

/-- The state machine fails at a new command. -/
def Refused (a : Applier) (e : Entry) (f : Failure Error) : Prop :=
  ∃ c err, e.payload = .command c ∧ a.sessions.check c.client c.sequence = .new
    ∧ a.machine.apply e.index e.term c.data = .error err
    ∧ f = .error (.fatal (s!"apply index {e.index} failed: " ++ err.message))

theorem execute_ensures (e : Entry) (a : Applier) :
    (execute e).Ensures a (fun r b => a.Executed e r b) fun f b => b = a ∧ a.Refused e f := by
  unfold execute
  cases hpayload : e.payload with
  | noop =>
    apply Action.ensures_pure
    apply Executed.passed
    · intro c hc
      rw [hpayload] at hc
      cases hc
    · exact nofun
  | command c =>
    have hold : a.sessions.check c.client c.sequence ≠ .new →
        ∀ d, e.payload = .command d → a.sessions.check d.client d.sequence ≠ .new := by
      intro hne d hd
      rw [hpayload] at hd
      obtain rfl := Payload.command.inj hd
      exact hne
    refine Action.ensures_get_bind ?_
    cases hcheck : a.sessions.check c.client c.sequence with
    | applied x =>
      apply Action.ensures_pure
      apply Executed.passed
      · apply hold
        rw [hcheck]
        simp
      · intro y hy
        rw [← Option.some.inj hy]
        exact ⟨c, hpayload, hcheck⟩
    | stale latest =>
      apply Action.ensures_pure
      apply Executed.passed
      · apply hold
        rw [hcheck]
        simp
      · exact nofun
    -- only a new command reaches the state machine
    | new =>
      dsimp only
      cases happly : a.machine.apply e.index e.term c.data with
      | error err =>
        exact Action.ensures_fail ⟨rfl, c, err, hpayload, hcheck, happly, rfl⟩
      | ok p =>
        obtain ⟨machine, output⟩ := p
        refine Action.ensures_set_bind (Action.ensures_pure ?_)
        exact Executed.ran c machine output hpayload hcheck happly

def conclude (e : Entry) (r : Option CommitResult) (a : Applier) : Applier :=
  { a with
    lastApplied := e.index
    count := a.count + 1
    waiters := (a.waiters.take e.index).2
    answers := a.answers ++ (a.waiters.take e.index).1.map fun w => (w.caller, answer r e.term w) }

theorem applyEntry_ensures (e : Entry) (a : Applier) :
    (applyEntry e).Ensures a (fun _ b => ∃ r m, a.Executed e r m ∧ b = m.conclude e r)
      fun f b => b = a ∧ a.Refused e f := by
  unfold applyEntry
  refine (execute_ensures e a).bind ?_
  intro r m hm
  exact Action.ensures_modify ⟨r, m, hm, rfl⟩

theorem Executed.commit_eq (h : a.Executed e r b) : b.commit = a.commit := by
  cases h <;> rfl

theorem Executed.waiters_eq (h : a.Executed e r b) : b.waiters = a.waiters := by
  cases h <;> rfl

theorem Executed.answers_eq (h : a.Executed e r b) : b.answers = a.answers := by
  cases h <;> rfl

/-- Those that wait on an entry are let go, each with the result of the entry. -/
theorem Executed.waiters_conclude (h : a.Executed e r b) :
    (b.conclude e r).waiters = (a.waiters.take e.index).2 :=
  congrArg (fun w : Waiters => (w.take e.index).2) h.waiters_eq

theorem Executed.answers_conclude (h : a.Executed e r b) :
    (b.conclude e r).answers = a.answers
      ++ (a.waiters.take e.index).1.map fun w => (w.caller, answer r e.term w) := by
  show b.answers ++ (b.waiters.take e.index).1.map _ = _
  rw [h.answers_eq, h.waiters_eq]

theorem Executed.applied_subset (h : a.Executed e r b) : a.machine.applied ⊆ b.machine.applied := by
  cases h with
  | passed => exact List.Subset.refl _
  | ran c machine output hpayload hnew happly =>
    obtain ⟨rfl, -⟩ := Machine.eq_of_apply_eq_ok happly
    exact List.subset_append_left _ _

/-- **One entry.** The loop stays sound when the next committed entry is applied. -/
theorem Sound.conclude (h : a.Sound l commit) (he : entryAt l (a.lastApplied + 1) = some e)
    (hindex : e.index = a.lastApplied + 1) (hlt : a.lastApplied < a.commit)
    (hx : a.Executed e r b) : (b.conclude e r).Sound l commit := by
  have htold := h.told
  have hlast := h.last
  have hstay : ∀ {client : String} {sequence : Nat} {x : CommitResult},
      Stands l a.lastApplied client sequence x → Stands l e.index client sequence x := by
    intro client sequence x hs
    exact hs.mono (by omega)
  -- one entry more is applied
  have htake : ∀ x ∈ l.take e.index, x ∈ l.take a.lastApplied ∨ x = e := by
    intro x hx
    rw [hindex, take_succ_of_entryAt he] at hx
    exact (List.mem_append.1 hx).imp_right List.mem_singleton.1
  cases hx with
  | passed r hold =>
    refine ⟨htold, ?_, ?_, h.sessions, ?_, ?_⟩
    · show e.index ≤ commit
      omega
    · show a.machine.last ≤ e.index
      omega
    · intro x hx
      rcases htake x hx with hx | rfl
      · exact h.recalls x hx
      · exact hold
    · exact h.remembers.mono fun _ _ _ hs => hstay hs
  | ran c machine output hpayload hnew happly =>
    refine ⟨htold, ?_, ?_, h.sessions.record, ?_, ?_⟩
    · show e.index ≤ commit
      omega
    · show machine.last ≤ e.index
      obtain ⟨rfl, -⟩ := Machine.eq_of_apply_eq_ok happly
      exact Nat.le_refl _
    · intro x hx
      rcases htake x hx with hx | rfl
      · exact (h.recalls x hx).record h.sessions
      · intro d hd
        rw [hpayload] at hd
        obtain rfl := Payload.command.inj hd
        exact Sessions.recalls_record_self h.sessions
    · apply Sessions.Each.record
      · exact h.remembers.mono fun _ _ _ hs => hstay hs
      · rw [← hindex] at he
        exact stands_self he hpayload (Nat.le_refl _)

/-! ## Rounds -/

section Rounds

variable {I : Applier → Prop} {log : Log}

theorem applyAll_ensures {entries : List Entry}
    (hstep : ∀ a e r b, I a → entryAt log.entries (a.lastApplied + 1) = some e →
      e.index = a.lastApplied + 1 → a.lastApplied < a.commit → a.Executed e r b →
      I (b.conclude e r))
    (h : I a)
    (hentries : ∀ k e, entries[k]? = some e →
      entryAt log.entries (a.lastApplied + k + 1) = some e ∧ e.index = a.lastApplied + k + 1)
    (hcommit : a.lastApplied + entries.length ≤ a.commit) :
    (applyAll entries).Ensures a
      (fun _ b => I b ∧ b.lastApplied = a.lastApplied + entries.length)
      fun f b => I b ∧ a.lastApplied ≤ b.lastApplied
        ∧ b.lastApplied < a.lastApplied + entries.length
        ∧ ∃ e, entryAt log.entries (b.lastApplied + 1) = some e ∧ b.Refused e f := by
  induction entries generalizing a with
  | nil => exact Action.ensures_pure ⟨h, rfl⟩
  | cons e rest ih =>
    rw [List.length_cons] at hcommit ⊢
    obtain ⟨he, hindex⟩ := hentries 0 e rfl
    unfold applyAll
    refine Action.Ensures.bind ((applyEntry_ensures e a).mono (fun _ _ hb => hb) ?_) ?_
    · rintro f b ⟨rfl, hrefused⟩
      exact ⟨h, Nat.le_refl _, by omega, e, he, hrefused⟩
    · rintro _ _ ⟨r, m, hm, rfl⟩
      have hlast : (m.conclude e r).lastApplied = a.lastApplied + 1 := hindex
      have hsame : (m.conclude e r).commit = a.commit := hm.commit_eq
      refine (ih (hstep a e r m h he hindex (by omega) hm) (fun k x hk => ?_) (by omega)).mono ?_ ?_
      · have := hentries (k + 1) x hk
        rwa [hlast, show a.lastApplied + 1 + k + 1 = a.lastApplied + (k + 1) + 1 by omega]
      · rintro _ b ⟨hb, hreach⟩
        exact ⟨hb, by omega⟩
      · rintro f b ⟨hb, hle, hlt, hrefused⟩
        exact ⟨hb, by omega, by omega, hrefused⟩

/-- How far a round goes: to the commit index, unless the batch or the log ends before. -/
def reach (a : Applier) (log : Log) : Nat :=
  min a.commit (min (a.lastApplied + a.batch) log.lastIndex)

/-- How a round that started from `a` can fail, in the state `b`. -/
inductive Halted (log : Log) (a b : Applier) (f : Failure Error) : Prop
  /-- The batch ends beyond all indexes. -/
  | overflow (hf : f = .overflow) (hb : b = a) (hlarge : wordSize ≤ a.lastApplied + a.batch)
  /-- The log cannot be read. -/
  | unread (hread : log.faults.read = true) (hb : b = a)
  /-- The state machine fails at the next entry. -/
  | refused (e : Entry) (he : entryAt log.entries (b.lastApplied + 1) = some e)
      (hlt : b.lastApplied < a.reach log) (hrefused : b.Refused e f)

theorem read_of_range_eq_error {i j : Nat} {e : Error} (h : LogStore.range log i j = .error e) :
    log.faults.read = true := by
  change log.range i j = _ at h
  unfold Log.range at h
  split at h
  · assumption
  · cases h

/-- What a round reads are the next entries of the log, as far as it goes. -/
theorem batch_of_range_eq_ok {entries : List Entry} (hl : Positioned log.entries)
    (h : LogStore.range log (a.lastApplied + 1) (min a.commit (a.lastApplied + a.batch))
      = .ok entries) :
    entries.length = a.reach log - a.lastApplied
      ∧ ∀ k e, entries[k]? = some e →
        entryAt log.entries (a.lastApplied + k + 1) = some e ∧ e.index = a.lastApplied + k + 1 := by
  change log.range _ _ = _ at h
  unfold Log.range at h
  split at h
  · cases h
  obtain rfl := Except.ok.inj h
  unfold Log.slice
  rw [show max (a.lastApplied + 1) 1 - 1 = a.lastApplied by omega]
  constructor
  · rw [List.length_drop, List.length_take, Nat.min_assoc]
    rfl
  · intro k e hk
    rw [List.getElem?_drop, List.getElem?_take] at hk
    split at hk
    · have he : entryAt log.entries (a.lastApplied + k + 1) = some e := by rwa [entryAt_succ]
      exact ⟨he, hl _ e he⟩
    · cases hk

/-- **A round of the apply loop.** What every entry keeps, the round keeps, however it ends. -/
theorem process_ensures (hl : Positioned log.entries)
    (hstep : ∀ a e r b, I a → entryAt log.entries (a.lastApplied + 1) = some e →
      e.index = a.lastApplied + 1 → a.lastApplied < a.commit → a.Executed e r b →
      I (b.conclude e r))
    (h : I a) :
    (process log).Ensures a
      (fun _ b => I b ∧ b.lastApplied = max a.lastApplied (a.reach log))
      fun f b => I b ∧ Halted log a b f := by
  have hreach : a.reach log ≤ a.commit := Nat.min_le_left _ _
  unfold process
  refine Action.ensures_get_bind ?_
  split
  · refine Action.Ensures.bind (Q := fun bound b => bound = a.lastApplied + a.batch ∧ a = b)
      (Action.ensures_ofExcept (fun _ hbound => ⟨(sum_eq_ok_iff.1 hbound).2.symm, rfl⟩)
        fun f hf => ?_) ?_
    · obtain ⟨rfl, hlarge⟩ := sum_eq_error_iff.1 hf
      exact ⟨h, .overflow rfl rfl hlarge⟩
    rintro _ _ ⟨rfl, rfl⟩
    dsimp only
    split
    · rename_i hrange
      exact Action.ensures_fail ⟨h, .unread (read_of_range_eq_error hrange) rfl⟩
    · rename_i entries hrange
      obtain ⟨hlength, hentries⟩ := batch_of_range_eq_ok hl hrange
      refine (applyAll_ensures hstep h hentries (by omega)).mono ?_ ?_
      · rintro _ b ⟨hb, hlast⟩
        exact ⟨hb, by omega⟩
      · rintro f b ⟨hb, hle, hlt, e, he, hrefused⟩
        exact ⟨hb, .refused e he (by omega) hrefused⟩
  · refine Action.ensures_pure ⟨h, ?_⟩
    unfold reach
    omega

end Rounds

end Applier

namespace ApplySchedule

variable {I : Applier → Prop} {s : ApplySchedule} {a : Applier} {log : Log} {i : Nat}

theorem round_keeps (hl : Positioned log.entries)
    (hstep : ∀ a e r b, I a → entryAt log.entries (a.lastApplied + 1) = some e →
      e.index = a.lastApplied + 1 → a.lastApplied < a.commit → a.Executed e r b →
      I (b.conclude e r))
    (h : I a) : I (s.round log a).2 := by
  have hprocess := Applier.process_ensures hl hstep h
  unfold round
  split
  · exact h
  · cases hrun : Applier.process log a with
    | ok x b => exact (hprocess.ok hrun).1
    | error f b => exact (hprocess.error hrun).1

theorem signal_keeps (hl : Positioned log.entries)
    (hstep : ∀ a e r b, I a → entryAt log.entries (a.lastApplied + 1) = some e →
      e.index = a.lastApplied + 1 → a.lastApplied < a.commit → a.Executed e r b →
      I (b.conclude e r))
    (h : I a) (hi : I (a.signal i)) : I (s.signal log a i).2 := by
  unfold signal
  split
  · exact h
  · exact round_keeps hl hstep hi

end ApplySchedule

end Raft
