import Raft.Proofs.Action
import Raft.Proofs.Log.Position

/-!
# Merging entries into a log

What the merge of a leader's entries does to a log: entries that are present with the same term
stay, and from the first one that is not on, the rest of the request stands in their place. When
writing fails, the end of the request can be missing.

* `Knows l e`: the list holds an entry of the term of `e` at its index.
* `Merged commit l es l'`: what `l` can become.
* `Contradicts commit l es`: an entry of the request stands against a committed one.
* `merge_ensures` says what a run of the merge does to a log.
-/

namespace Raft

/-- The list holds an entry of the same term at the same index. -/
def Knows (l : List Entry) (e : Entry) : Prop := (entryAt l e.index).map Entry.term = some e.term

instance (l : List Entry) (e : Entry) : Decidable (Knows l e) := by
  unfold Knows
  infer_instance

/-- The entries stand at the indexes that follow a position. -/
def Consecutive (i : Nat) (es : List Entry) : Prop :=
  ∀ k e, es[k]? = some e → e.index = i + k + 1

/-- What a list becomes when a leader's entries are merged into it. Of the entries from the first
unknown one on, those in `new` are written. -/
inductive Merged (commit : Nat) (l : List Entry) (es : List Entry) : List Entry → Prop
  | same (h : ∀ e ∈ es, Knows l e) : Merged commit l es l
  | extended {known rest new : List Entry} {e : Entry} (hes : es = known ++ e :: rest)
      (hknown : ∀ x ∈ known, Knows l x) (hfree : entryAt l e.index = none)
      (hnew : new <+: e :: rest) (hplace : Consecutive l.length new) :
      Merged commit l es (l ++ new)
  | cut {known rest new : List Entry} {e x : Entry} (hes : es = known ++ e :: rest)
      (hknown : ∀ x ∈ known, Knows l x) (hx : entryAt l e.index = some x)
      (hterm : x.term ≠ e.term) (hcommit : commit < e.index) (hnew : new <+: e :: rest)
      (hplace : Consecutive (e.index - 1) new) :
      Merged commit l es (l.take (e.index - 1) ++ new)

/-- The first unknown entry of the request stands where a committed one is. -/
def Contradicts (commit : Nat) (l es : List Entry) : Prop :=
  ∃ known e rest x, es = known ++ e :: rest ∧ (∀ y ∈ known, Knows l y)
    ∧ entryAt l e.index = some x ∧ x.term ≠ e.term ∧ e.index ≤ commit

variable {l : List Entry} {es new : List Entry} {i : Nat}

/-! ## Consecutive entries -/

theorem consecutive_nil : Consecutive i [] := by
  intro k e h
  simp at h

theorem consecutive_cons {e : Entry} :
    Consecutive i (e :: es) ↔ e.index = i + 1 ∧ Consecutive (i + 1) es := by
  constructor
  · intro h
    refine ⟨by simpa using h 0 e (by simp), fun k x hx => ?_⟩
    have := h (k + 1) x (by simpa using hx)
    omega
  · rintro ⟨he, h⟩ k x hx
    cases k with
    | zero =>
      obtain rfl : e = x := by simpa using hx
      omega
    | succ k =>
      have := h k x (by simpa using hx)
      omega

instance decidableConsecutive : (i : Nat) → (es : List Entry) → Decidable (Consecutive i es)
  | _, [] => isTrue consecutive_nil
  | i, _ :: es =>
    have := decidableConsecutive (i + 1) es
    decidable_of_iff _ consecutive_cons.symm

theorem consecutive_append :
    Consecutive i (es ++ new) ↔ Consecutive i es ∧ Consecutive (i + es.length) new := by
  induction es generalizing i with
  | nil => simp [consecutive_nil]
  | cons e es ih =>
    have hlength : i + 1 + es.length = i + (e :: es).length := by
      rw [List.length_cons]
      omega
    rw [List.cons_append, consecutive_cons, consecutive_cons, ih, hlength, and_assoc]

/-- An entry of a consecutive list stands, once the list is written, at its index. -/
theorem entryAt_of_consecutive {e : Entry} (h : Consecutive l.length es) (he : e ∈ es) :
    entryAt (l ++ es) e.index = some e := by
  obtain ⟨k, hk⟩ := List.getElem?_of_mem he
  rw [h k e hk, entryAt_succ, List.getElem?_append_right (by omega), Nat.add_sub_cancel_left, hk]

/-- Of consecutive entries, those that come first have the lower indexes. -/
theorem index_lt_of_consecutive {known rest : List Entry} {e x : Entry}
    (h : Consecutive i (known ++ e :: rest)) (hx : x ∈ known) : x.index < e.index := by
  obtain ⟨k, hk⟩ := List.getElem?_of_mem hx
  have hlt := (List.getElem?_eq_some_iff.1 hk).1
  have hxi := h k x (by rw [List.getElem?_append_left hlt, hk])
  have hei := h known.length e (by simp)
  omega

/-! ## Positions -/

theorem positioned_nil : Positioned [] := by
  intro i e he
  simp [entryAt] at he

theorem positioned_iff : Positioned l ↔ Consecutive 0 l := by
  constructor
  · intro h k e hk
    have := h (k + 1) e (by simpa using hk)
    omega
  · intro h i e he
    obtain ⟨hpos, hplace⟩ := entryAt_eq_some_iff.1 he
    have := h (i - 1) e hplace
    omega

instance (l : List Entry) : Decidable (Positioned l) := decidable_of_iff _ positioned_iff.symm

theorem Positioned.take (h : Positioned l) (k : Nat) : Positioned (l.take k) := by
  intro i e he
  refine h i e ?_
  exact entryAt_of_isPrefix (List.take_prefix k l) he

theorem Positioned.append (h : Positioned l) (hnew : Consecutive l.length new) :
    Positioned (l ++ new) := by
  intro i e he
  by_cases hi : i ≤ l.length
  · rw [entryAt_append_left hi] at he
    exact h i e he
  · obtain ⟨-, he⟩ := entryAt_eq_some_iff.1 he
    rw [List.getElem?_append_right (by omega)] at he
    rw [hnew _ e he]
    omega

theorem Positioned.append_last {e : Entry} (h : Positioned l) (he : e.index = l.length + 1) :
    Positioned (l ++ [e]) := by
  refine h.append ?_
  rw [consecutive_cons]
  exact ⟨he, consecutive_nil⟩

/-! ## Known entries -/

theorem knows_of_entryAt {e x : Entry} (h : entryAt l e.index = some x) (ht : x.term = e.term) :
    Knows l e := by
  unfold Knows
  rw [h, ← ht]
  rfl

theorem knows_iff_exists {e : Entry} :
    Knows l e ↔ ∃ x, entryAt l e.index = some x ∧ x.term = e.term := by
  unfold Knows
  simp

theorem Knows.of_isPrefix {l' : List Entry} {e : Entry} (h : Knows l e) (hl : l <+: l') :
    Knows l' e := by
  obtain ⟨x, hx, ht⟩ := knows_iff_exists.1 h
  exact knows_of_entryAt (entryAt_of_isPrefix hl hx) ht

theorem Knows.take {e : Entry} (h : Knows l e) (hi : e.index ≤ i) : Knows (l.take i) e := by
  unfold Knows at h ⊢
  rw [entryAt_take hi, h]

/-- A whole request is known once its unknown end is written behind a list that still knows the
beginning. -/
theorem knows_append {base known rest : List Entry} {e : Entry}
    (hes : Consecutive i (known ++ e :: rest))
    (hbase : ∀ x ∈ known, x.index < e.index → Knows base x)
    (hplace : Consecutive base.length (e :: rest)) :
    ∀ x ∈ known ++ e :: rest, Knows (base ++ e :: rest) x := by
  intro x hx
  rcases List.mem_append.1 hx with hx | hx
  · exact (hbase x hx (index_lt_of_consecutive hes hx)).of_isPrefix (List.prefix_append _ _)
  · exact knows_of_entryAt (entryAt_of_consecutive hplace hx) rfl

theorem Merged.termAt_eq {commit t : Nat} {l' : List Entry} (h : Merged commit l es l')
    (hes : Consecutive i es) (ht : termAt l i = some t) : termAt l' i = some t := by
  cases h with
  | same => exact ht
  | extended => exact termAt_of_isPrefix (List.prefix_append _ _) ht
  | @cut known rest new e x hsplit =>
    have hi := hes known.length e (by rw [hsplit]; simp)
    refine termAt_of_isPrefix (List.prefix_append _ _) ?_
    rwa [termAt_take (by omega)]

theorem Merged.take_eq {commit : Nat} {l' : List Entry} (h : Merged commit l es l')
    (hle : commit ≤ l.length) : l'.take commit = l.take commit := by
  cases h with
  | same => rfl
  | extended => exact List.take_append_of_le_length hle
  | @cut known rest new e x hsplit hknown hx hterm hcommit =>
    rw [List.take_append_of_le_length (by rw [List.length_take]; omega), List.take_take,
      Nat.min_eq_left (by omega)]

theorem Merged.positioned {commit : Nat} {l' : List Entry} (h : Merged commit l es l')
    (hl : Positioned l) : Positioned l' := by
  cases h with
  | same => exact hl
  | extended _ _ _ _ hplace => exact hl.append hplace
  | cut _ _ hx _ _ _ hplace =>
    refine (hl.take _).append ?_
    have := le_length_of_entryAt hx
    rwa [List.length_take, Nat.min_eq_left (by omega)]

theorem Merged.le_length {commit : Nat} {l' : List Entry} (h : Merged commit l es l')
    (hle : commit ≤ l.length) : commit ≤ l'.length := by
  have htake := congrArg List.length (h.take_eq hle)
  rw [List.length_take, List.length_take] at htake
  omega

/-! ## Reading and writing a log -/

theorem Log.term?_eq (l : Log) (i : Nat) :
    LogStore.term? l i = (entryAt l.entries i).map Entry.term := rfl

theorem Log.prevTerm?_eq (l : Log) (i : Nat) : LogStore.prevTerm? l i = termAt l.entries i := rfl

/-- Two stores with the same terms at the entries' indexes lack the same of them. -/
theorem unknown_congr {σ τ : Type} [LogStore σ] [LogStore τ] {s : σ} {t : τ} {es : List Entry}
    (h : ∀ e ∈ es, LogStore.term? s e.index = LogStore.term? t e.index) :
    LogStore.unknown s es = LogStore.unknown t es := by
  induction es with
  | nil => rfl
  | cons e es ih =>
    obtain ⟨he, hes⟩ := List.forall_mem_cons.1 h
    unfold LogStore.unknown
    rw [he, ih hes]

/-- The entries before the first unknown one are known. -/
theorem exists_known_append_unknown (l : Log) (es : List Entry) :
    ∃ known, es = known ++ LogStore.unknown l es ∧ (∀ x ∈ known, Knows l.entries x)
      ∧ ∀ e rest, LogStore.unknown l es = e :: rest → ¬ Knows l.entries e := by
  induction es with
  | nil => exact ⟨[], rfl, by simp, by simp [LogStore.unknown]⟩
  | cons e es ih =>
    unfold LogStore.unknown
    split
    · rename_i he
      obtain ⟨known, hes, hknown, hhead⟩ := ih
      refine ⟨e :: known, by rw [List.cons_append, ← hes], ?_, hhead⟩
      rintro x hx
      rcases List.mem_cons.1 hx with rfl | hx
      · exact he
      · exact hknown x hx
    · rename_i he
      refine ⟨[], rfl, by simp, ?_⟩
      rintro x rest hx
      obtain ⟨rfl, -⟩ := List.cons.inj hx
      exact he

/-- What `extend` adds is a consecutive part of the new entries, all of them if nothing failed. -/
theorem Log.extend_spec (l new : List Entry) :
    ∃ added, (Log.extend l new).1 = l ++ added ∧ added <+: new ∧ Consecutive l.length added
      ∧ ((Log.extend l new).2 = none → added = new) := by
  induction new generalizing l with
  | nil => exact ⟨[], by simp [extend], List.prefix_rfl, consecutive_nil, fun _ => rfl⟩
  | cons e new ih =>
    unfold extend
    split
    · rename_i he
      obtain ⟨added, hout, hpre, hplace, hall⟩ := ih (l ++ [e])
      refine ⟨e :: added, by simpa using hout, (List.prefix_cons_inj e).2 hpre, ?_, ?_⟩
      · rw [consecutive_cons]
        refine ⟨he, ?_⟩
        simpa using hplace
      · intro h
        rw [hall h]
    · exact ⟨[], by simp, List.nil_prefix, consecutive_nil, by simp⟩

theorem Log.extend_of_consecutive {entries : List Entry} (h : Consecutive entries.length es) :
    Log.extend entries es = (entries ++ es, none) := by
  induction es generalizing entries with
  | nil => simp [extend]
  | cons e es ih =>
    obtain ⟨he, hes⟩ := consecutive_cons.1 h
    have hrest : extend (entries ++ [e]) es = (entries ++ [e] ++ es, none) :=
      ih (by simpa using hes)
    simp [extend, he, hrest]

/-- Appending writes a consecutive part of the entries, all of them if it succeeds. -/
theorem Log.append_ensures (l : Log) (new : List Entry) :
    (Log.append new).Ensures l
      (fun _ l' => l'.entries = l.entries ++ new ∧ Consecutive l.entries.length new)
      (fun f l' => (∃ e, f = .error (.storage e)) ∧ ∃ added, l'.entries = l.entries ++ added
        ∧ added <+: new ∧ Consecutive l.entries.length added) := by
  obtain ⟨added, hout, hpre, hplace, hall⟩ := Log.extend_spec l.entries new
  have hnone : ∃ added, l.entries = l.entries ++ added ∧ added <+: new
      ∧ Consecutive l.entries.length added :=
    ⟨[], by simp, List.nil_prefix, consecutive_nil⟩
  unfold Log.append
  refine Action.ensures_get_bind ?_
  dsimp only
  split
  · exact ⟨⟨_, rfl⟩, hnone⟩
  · cases hx : Log.extend l.entries new with
    | mk entries fault =>
      rw [hx] at hout hall
      cases fault with
      | none =>
        obtain rfl : added = new := hall rfl
        exact Action.ensures_set ⟨hout, hplace⟩
      | some gap =>
        dsimp only
        split
        · exact ⟨⟨_, rfl⟩, hnone⟩
        · exact ⟨⟨_, rfl⟩, added, hout, hpre, hplace⟩

/-- However appending ends, entries that continue the log are added, and its faults stay. -/
theorem Log.append_state (l : Log) (new : List Entry) :
    ∃ added, (Action.state ((Log.append new).run l)).entries = l.entries ++ added
      ∧ Consecutive l.entries.length added
      ∧ (Action.state ((Log.append new).run l)).faults = l.faults := by
  have hentries := Log.append_ensures l new
  have hfaults : (Log.append new).Ensures l (fun _ l' => l'.faults = l.faults)
      fun _ l' => l'.faults = l.faults := by
    unfold Log.append
    refine Action.ensures_get_bind ?_
    dsimp only
    split
    · exact rfl
    · split
      · exact rfl
      · split <;> exact rfl
  unfold Action.Ensures at hentries hfaults
  cases hrun : (Log.append new).run l with
  | ok a l' =>
    rw [hrun] at hentries hfaults
    exact ⟨new, hentries.1, hentries.2, hfaults⟩
  | error f l' =>
    rw [hrun] at hentries hfaults
    obtain ⟨-, added, hout, -, hplace⟩ := hentries
    exact ⟨added, hout, hplace, hfaults⟩

theorem Log.positioned_ofEntries (es : List Entry) : Positioned (Log.ofEntries es).entries := by
  obtain ⟨added, hout, -, hplace, -⟩ := Log.extend_spec [] es
  show Positioned (Log.extend [] es).1
  rw [hout]
  exact positioned_nil.append hplace

theorem Log.truncate_ensures (l : Log) (start : Nat) :
    (Log.truncate start).Ensures l
      (fun _ l' => l'.entries = l.entries.take (start - 1))
      (fun f l' => (∃ e, f = .error (.storage e)) ∧ l' = l) := by
  unfold Log.truncate
  refine Action.ensures_get_bind ?_
  dsimp only
  split
  · exact ⟨⟨_, rfl⟩, rfl⟩
  · rfl

/-! ## Writing that nothing makes fail -/

theorem Log.run_append {l : Log} (hfault : l.faults.append = false)
    (h : Consecutive l.entries.length new) :
    (Log.append new).run l = .ok () { l with entries := l.entries ++ new } := by
  unfold Log.append
  show (if l.faults.append = true then _ else _ : Action Log Unit).run l = _
  rw [hfault, Log.extend_of_consecutive h]
  rfl

theorem Log.run_truncate {l : Log} (start : Nat) (hfault : l.faults.truncate = false) :
    (Log.truncate start).run l = .ok () { l with entries := l.entries.take (start - 1) } := by
  unfold Log.truncate
  show (if l.faults.truncate = true then _ else _ : Action Log Unit).run l = _
  rw [hfault]
  rfl

/-! ## The merge -/

/-- How a merge can end in an error: with the log as it was, or with the end of the request not
written. Only a committed entry that is contradicted gives an error of replication. -/
def MergeFails (commit prevIndex prevTerm : Nat) (es : List Entry) (l : Log) (f : Failure Error)
    (l' : Log) : Prop :=
  (l'.entries = l.entries
      ∨ termAt l.entries prevIndex = some prevTerm ∧ Merged commit l.entries es l'.entries)
    ∧ ∀ e, f = .error (.replication e) → l' = l ∧ termAt l.entries prevIndex = some prevTerm
      ∧ Contradicts commit l.entries es

/-- How a merge ends without one. -/
def MergeDone (commit prevIndex prevTerm : Nat) (es : List Entry) (l : Log) (r : Option Nat)
    (l' : Log) : Prop :=
  match r with
  | none => l' = l ∧ termAt l.entries prevIndex ≠ some prevTerm
  | some matched =>
    matched = prevIndex + es.length ∧ termAt l.entries prevIndex = some prevTerm
      ∧ Merged commit l.entries es l'.entries
      ∧ (Consecutive prevIndex es → ∀ e ∈ es, Knows l'.entries e)

section Merge

variable {l l' : Log} {prevIndex prevTerm commit : Nat} {es known rest : List Entry} {e : Entry}

theorem mergeFails_of_eq (h : l'.entries = l.entries) {f : Failure Error}
    (hf : ∀ e, f ≠ .error (.replication e)) :
    MergeFails commit prevIndex prevTerm es l f l' :=
  ⟨Or.inl h, fun e he => absurd he (hf e)⟩

/-- The end of a merge: behind what is left of the log, the unknown end of the request is written.
`hmerged` says which merge that is, `hleft` that what is left knows the beginning. -/
theorem merge_append_ensures (hprev : termAt l.entries prevIndex = some prevTerm)
    (hes : es = known ++ e :: rest)
    (hleft : ∀ x ∈ known, x.index < e.index → Knows l'.entries x)
    (hmerged : ∀ new, new <+: e :: rest → Consecutive l'.entries.length new →
      Merged commit l.entries es (l'.entries ++ new)) :
    (do Log.append (e :: rest); return some (prevIndex + es.length)).Ensures l'
      (MergeDone commit prevIndex prevTerm es l) (MergeFails commit prevIndex prevTerm es l) := by
  refine Action.Ensures.bind ((Log.append_ensures l' (e :: rest)).mono (fun _ _ h => h) ?_) ?_
  · rintro f k ⟨⟨y, rfl⟩, added, hout, hpre, hplace⟩
    refine ⟨Or.inr ⟨hprev, ?_⟩, by simp⟩
    rw [hout]
    exact hmerged added hpre hplace
  · rintro _ k ⟨hout, hplace⟩
    refine Action.ensures_pure ⟨rfl, hprev, ?_, fun hc => ?_⟩
    · rw [hout]
      exact hmerged _ List.prefix_rfl hplace
    · rw [hes] at hc ⊢
      rw [hout]
      exact knows_append hc hleft hplace

/-- The log ends before the first unknown entry: nothing is cut. -/
theorem merge_free_ensures (hprev : termAt l.entries prevIndex = some prevTerm)
    (hes : es = known ++ e :: rest) (hknown : ∀ x ∈ known, Knows l.entries x)
    (hfree : entryAt l.entries e.index = none) :
    (do Log.append (e :: rest); return some (prevIndex + es.length)).Ensures l
      (MergeDone commit prevIndex prevTerm es l) (MergeFails commit prevIndex prevTerm es l) :=
  merge_append_ensures hprev hes (fun x hx _ => hknown x hx) fun _ hpre hplace =>
    Merged.extended hes hknown hfree hpre hplace

/-- An entry that is not committed stands against the first unknown one: the log is cut there. -/
theorem merge_cut_ensures (hprev : termAt l.entries prevIndex = some prevTerm)
    (hes : es = known ++ e :: rest) (hknown : ∀ x ∈ known, Knows l.entries x) {x : Entry}
    (hx : entryAt l.entries e.index = some x) (hterm : x.term ≠ e.term)
    (hcommit : commit < e.index) :
    (do
      Log.truncate e.index
      Log.append (e :: rest)
      return some (prevIndex + es.length)).Ensures l
      (MergeDone commit prevIndex prevTerm es l) (MergeFails commit prevIndex prevTerm es l) := by
  refine Action.Ensures.bind ((Log.truncate_ensures l e.index).mono (fun _ _ h => h) ?_) ?_
  · rintro f _ ⟨⟨y, rfl⟩, rfl⟩
    exact mergeFails_of_eq rfl (by simp)
  · intro _ k hk
    refine merge_append_ensures hprev hes (fun y hy hlt => ?_) fun new hpre hplace => ?_
    · rw [hk]
      exact (hknown y hy).take (by omega)
    · have hlen : (l.entries.take (e.index - 1)).length = e.index - 1 := by
        have := le_length_of_entryAt hx
        rw [List.length_take]
        omega
      rw [hk, hlen] at hplace
      rw [hk]
      exact Merged.cut hes hknown hx hterm hcommit hpre hplace

end Merge

theorem merge_ensures (l : Log) (prevIndex prevTerm commit : Nat) (es : List Entry) :
    (LogStore.merge prevIndex prevTerm es commit).Ensures l
      (MergeDone commit prevIndex prevTerm es l) (MergeFails commit prevIndex prevTerm es l) := by
  obtain ⟨known, hes, hknown, hhead⟩ := exists_known_append_unknown l es
  unfold LogStore.merge
  refine Action.ensures_get_bind ?_
  rw [Log.prevTerm?_eq]
  split
  · rename_i hprev
    refine Action.Ensures.bind (Action.ensures_ofExcept (Q := fun m l' =>
      m = prevIndex + es.length ∧ l = l') ?_ ?_) ?_
    · intro m hm
      exact ⟨(sum_eq_ok_iff.1 hm).2.symm, rfl⟩
    · intro f hf
      obtain rfl := eq_overflow_of_sum_eq_error hf
      exact mergeFails_of_eq rfl (by simp)
    rintro m _ ⟨rfl, rfl⟩
    split
    · rename_i hnil
      rw [hnil, List.append_nil] at hes
      subst hes
      exact Action.ensures_pure ⟨rfl, hprev, Merged.same hknown, fun _ => hknown⟩
    · rename_i e rest hcons
      rw [hcons] at hes
      have he := hhead e rest hcons
      rw [Log.term?_eq]
      dsimp only
      split
      · rename_i hsome
        obtain ⟨x, hx⟩ : ∃ x, entryAt l.entries e.index = some x := by
          simpa [Option.isSome_iff_exists] using hsome
        have hterm : x.term ≠ e.term := fun ht => he (knows_of_entryAt hx ht)
        -- the entry that stands there has another term: it is committed, or the log is cut
        split
        · rename_i hle
          exact ⟨Or.inl rfl, fun _ _ => ⟨rfl, hprev, known, e, rest, x, hes, hknown, hx, hterm, hle⟩⟩
        · rename_i hlt
          exact merge_cut_ensures hprev hes hknown hx hterm (Nat.not_le.1 hlt)
      · rename_i hfree
        exact merge_free_ensures hprev hes hknown (by simpa using hfree)
  · rename_i hprev
    exact Action.ensures_pure ⟨rfl, hprev⟩

end Raft
