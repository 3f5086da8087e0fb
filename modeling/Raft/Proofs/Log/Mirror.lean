import Mathlib.Data.List.Chain
import Raft.Proofs.Log.Search
import Raft.Proofs.Log.Stored

/-!
# Two logs with the same entries

The durable log mirrors the one in memory when its tree holds the same entries and the index kept
beside it is their number. Then both answer every read alike, and what is written to both keeps them
so, unless it leaves a gap: both refuse that, and the durable log stays as it was.

* `Mirrors k l`: the relation. Nothing is made to fail, and there is room for one more index.
* `Mirrors.entry?_eq` and its like: the reads.
* `Agree x y k l`: an action on each gives the same outcome and leaves them mirrored.
* `append_agree`, `append_gap`, `truncate_agree`, `merge_agree`: the writes.
-/

namespace Raft

/-- The two logs hold the same entries. -/
structure Mirrors (k : KeyedLog) (l : Log) : Prop where
  items : k.tree.items = stored l.entries
  last : k.last = l.entries.length
  placed : Consecutive 0 l.entries
  fits : ∀ e ∈ l.entries, e.Fits
  room : l.entries.length < maxWord
  keyedFaults : k.faults = {}
  faults : l.faults = {}

variable {k : KeyedLog} {l : Log} {es : List Entry} {i : Nat}

theorem mirrors_empty : Mirrors {} {} where
  items := rfl
  last := rfl
  placed := consecutive_nil
  fits := by simp
  room := by decide
  keyedFaults := rfl
  faults := rfl

theorem maxWord_lt_wordSize : maxWord < wordSize := by decide

/-! ## Reading -/

namespace Mirrors

theorem lookup (h : Mirrors k l) (hi : i < wordSize) :
    k.tree.get? (Key.encode i) = (entryAt l.entries i).map Codec.ofEntry := by
  unfold Tree.get? entryAt
  rw [h.items, lookup_stored h.fits hi, h.placed.find?_eq]
  simp

theorem entry?_eq (h : Mirrors k l) (hi : i < wordSize) :
    LogStore.entry? k i = LogStore.entry? l i := by
  show KeyedLog.entry? k i = .ok (entryAt l.entries i)
  unfold KeyedLog.entry?
  rw [h.lookup hi]
  cases hentry : entryAt l.entries i with
  | none => rfl
  | some e =>
    have hfits := h.fits e (mem_of_entryAt hentry)
    simp only [Option.map_some, KeyedLog.decode_ofEntry hfits]
    rfl

theorem term?_eq (h : Mirrors k l) (hi : i < wordSize) :
    LogStore.term? k i = LogStore.term? l i := by
  have hentry : KeyedLog.entry? k i = .ok (entryAt l.entries i) := h.entry?_eq hi
  show KeyedLog.term? k i = (entryAt l.entries i).map Entry.term
  unfold KeyedLog.term?
  rw [hentry]
  by_cases hzero : i = 0
  · simp [hzero, entryAt]
  · simp [hzero]

theorem prevTerm?_eq (h : Mirrors k l) (hi : i < wordSize) :
    LogStore.prevTerm? k i = LogStore.prevTerm? l i := by
  unfold LogStore.prevTerm?
  rw [h.term?_eq hi]

theorem lastIndex_eq (h : Mirrors k l) : LogStore.lastIndex k = LogStore.lastIndex l := h.last

theorem lastId_eq (h : Mirrors k l) : LogStore.lastId k = LogStore.lastId l := by
  have hlt : k.last < wordSize := by
    have := h.room
    have := maxWord_lt_wordSize
    rw [h.last]
    omega
  have hterm : KeyedLog.term? k k.last = (entryAt l.entries k.last).map Entry.term := h.term?_eq hlt
  show KeyedLog.lastId k = Log.lastId l
  unfold KeyedLog.lastId Log.lastId
  rw [hterm, h.last, List.getLast?_eq_getElem?]
  cases hlast : l.entries[l.entries.length - 1]? with
  | none =>
    have hempty : l.entries.length = 0 := by
      have := List.getElem?_eq_none_iff.1 hlast
      omega
    simp [hempty, entryAt]
  | some e =>
    have hpos := (List.getElem?_eq_some_iff.1 hlast).1
    have hindex := h.placed _ e hlast
    have hentry : entryAt l.entries l.entries.length = some e :=
      entryAt_eq_some_iff.2 ⟨by omega, hlast⟩
    have hnumber : e.index = l.entries.length := by omega
    simp [hentry, Entry.id, hnumber]

theorem size_eq (h : Mirrors k l) : LogStore.size k = LogStore.size l := by
  show k.tree.items.length = l.entries.length
  rw [h.items, length_stored]

theorem isEmpty_eq (h : Mirrors k l) : LogStore.isEmpty k = LogStore.isEmpty l := by
  unfold LogStore.isEmpty
  rw [h.size_eq]

theorem range_eq (h : Mirrors k l) {lo hi : Nat} (hlo : lo < wordSize) (hhi : hi < wordSize) :
    LogStore.range k lo hi = LogStore.range l lo hi := by
  show KeyedLog.range k lo hi = Log.range l lo hi
  have hslice : (l.entries.filter fun e => lo ≤ e.index ∧ e.index ≤ hi) = l.slice lo hi := by
    have hlow : lo - (0 + 1) = max lo 1 - 1 := by omega
    rw [h.placed.between_eq, Nat.sub_zero, hlow]
    rfl
  have hfits : ∀ e ∈ l.slice lo hi, e.Fits := by
    intro e he
    rw [← hslice] at he
    exact h.fits e (List.mem_filter.1 he).1
  unfold KeyedLog.range Log.range Tree.range
  rw [h.keyedFaults, h.faults, h.items, between_stored h.fits hlo hhi, hslice,
    KeyedLog.mapM_decode hfits]

theorem readable_eq (h : Mirrors k l) : KeyedLog.readable k.tree.values = l.entries := by
  unfold Tree.values
  rw [h.items, KeyedLog.readable_stored h.fits]

/-- Both scans of the tree find what halving finds in the list. -/
theorem firstIndexOf?_eq (h : Mirrors k l)
    (hterms : l.entries.Pairwise fun a b => a.term ≤ b.term) (term : Nat) :
    LogStore.firstIndexOf? k term = LogStore.firstIndexOf? l term := by
  show KeyedLog.firstIndexOf? k term = Log.firstIndexOf? l term
  rw [Log.firstIndexOf?_eq_find? hterms]
  unfold KeyedLog.firstIndexOf?
  rw [h.readable_eq]

theorem lastIndexOf?_eq (h : Mirrors k l)
    (hterms : l.entries.Pairwise fun a b => a.term ≤ b.term) (term : Nat) :
    LogStore.lastIndexOf? k term = LogStore.lastIndexOf? l term := by
  show KeyedLog.lastIndexOf? k term = Log.lastIndexOf? l term
  rw [Log.lastIndexOf?_eq_find? hterms]
  unfold KeyedLog.lastIndexOf?
  rw [h.readable_eq]

theorem flush_eq (h : Mirrors k l) : LogStore.flush k = LogStore.flush l := by
  show KeyedLog.flush k = Log.flush l
  unfold KeyedLog.flush Log.flush
  rw [h.keyedFaults, h.faults]

end Mirrors

/-! ## Actions on both -/

/-- The two actions, each run from its log, end alike: with the same outcome, in logs that mirror
each other. -/
def Agree {α : Type} (x : Action KeyedLog α) (y : Action Log α) (k : KeyedLog) (l : Log) : Prop :=
  Action.outcome (x.run k) = Action.outcome (y.run l)
    ∧ Mirrors (Action.state (x.run k)) (Action.state (y.run l))

section Agree

variable {α β : Type}

theorem agree_pure (h : Mirrors k l) (a : α) : Agree (pure a) (pure a) k l := ⟨rfl, h⟩

theorem agree_fail (h : Mirrors k l) (e : Error) :
    Agree (Action.fail e : Action KeyedLog α) (Action.fail e) k l := ⟨rfl, h⟩

theorem agree_ofExcept (h : Mirrors k l) (x : Except (Failure Error) α) :
    Agree (Action.ofExcept x) (Action.ofExcept x) k l := by
  cases x
  · exact ⟨rfl, h⟩
  · exact ⟨rfl, h⟩

theorem agree_ofResult (h : Mirrors k l) (x : Except Error α) :
    Agree (Action.ofResult x) (Action.ofResult x) k l := by
  cases x
  · exact ⟨rfl, h⟩
  · exact ⟨rfl, h⟩

theorem agree_get_bind {f : KeyedLog → Action KeyedLog α} {g : Log → Action Log α}
    (h : Agree (f k) (g l) k l) : Agree (get >>= f) (get >>= g) k l := h

/-- What follows has to agree from the logs that the first part leaves. -/
theorem Agree.bind {x : Action KeyedLog α} {y : Action Log α} {f : α → Action KeyedLog β}
    {g : α → Action Log β} (h : Agree x y k l)
    (hf : ∀ a k' l', y.run l = .ok a l' → Mirrors k' l' → Agree (f a) (g a) k' l') :
    Agree (x >>= f) (y >>= g) k l := by
  obtain ⟨hout, hmirror⟩ := h
  unfold Agree
  rw [EStateM.run_bind, EStateM.run_bind]
  cases hx : x.run k with
  | ok a k' =>
    rw [hx] at hout hmirror
    cases hy : y.run l with
    | ok b l' =>
      rw [hy] at hout hmirror
      obtain rfl : a = b := Except.ok.inj hout
      exact hf a k' l' hy hmirror
    | error f l' =>
      rw [hy] at hout
      cases hout
  | error e k' =>
    rw [hx] at hout hmirror
    cases hy : y.run l with
    | ok b l' =>
      rw [hy] at hout
      cases hout
    | error f l' =>
      rw [hy] at hout hmirror
      obtain rfl : e = f := Except.error.inj hout
      exact ⟨rfl, hmirror⟩

end Agree

/-! ## Appending -/

/-- The first entry that does not follow, behind a log of length `n`, is what the fault names. -/
def Gap (n : Nat) (es : List Entry) (fault : LogFault) : Prop :=
  ∃ before e rest, es = before ++ e :: rest ∧ Consecutive n before
    ∧ e.index ≠ n + before.length + 1 ∧ fault = .gap e.index (n + before.length + 1)

theorem Log.exists_gap {entries : List Entry} (h : ¬ Consecutive entries.length es) :
    ∃ fault, Gap entries.length es fault ∧ (Log.extend entries es).2 = some fault := by
  induction es generalizing entries with
  | nil => exact absurd consecutive_nil h
  | cons e es ih =>
    unfold extend
    split
    · rename_i he
      have hrest : ¬ Consecutive (entries ++ [e]).length es := fun hes =>
        h (consecutive_cons.2 ⟨he, by simpa using hes⟩)
      obtain ⟨fault, ⟨before, x, rest, rfl, hbefore, hx, rfl⟩, hout⟩ := ih hrest
      rw [List.length_append, List.length_singleton] at hbefore hx hout
      have hlength : entries.length + 1 + before.length
          = entries.length + (e :: before).length := by
        rw [List.length_cons]
        omega
      rw [hlength] at hx hout
      exact ⟨_, ⟨e :: before, x, rest, rfl, consecutive_cons.2 ⟨he, hbefore⟩, hx, rfl⟩, hout⟩
    · rename_i he
      exact ⟨_, ⟨[], e, es, rfl, consecutive_nil, he, rfl⟩, rfl⟩

/-- A batch is refused for the gap that `extend` finds. -/
theorem KeyedLog.batch_eq {entries : List Entry} (h : entries.length + es.length < maxWord) :
    batch (entries.length + 1) es =
      match (Log.extend entries es).2 with
      | none => .ok (stored es, entries.length + 1 + es.length)
      | some gap => .error (.error (.storage (.log gap))) := by
  induction es generalizing entries with
  | nil => rfl
  | cons e es ih =>
    have hword := maxWord_lt_wordSize
    rw [List.length_cons] at h
    have hsum : sum (ε := Error) (entries.length + 1) 1 = .ok (entries.length + 1 + 1) :=
      sum_eq_ok_iff.2 ⟨by omega, rfl⟩
    have hrest := @ih (entries ++ [e]) (by simp; omega)
    unfold batch Log.extend
    -- either the entry continues the log, or it is the first gap
    by_cases he : e.index = entries.length + 1
    · simp only [List.length_append, List.length_singleton] at hrest
      simp only [he, if_true, hsum, bind, Except.bind]
      rw [hrest]
      cases (Log.extend (entries ++ [e]) es).2 with
      | none =>
        have hstop : entries.length + 1 + 1 + es.length = entries.length + 1 + (es.length + 1) := by
          omega
        simp [he, hstop, pure, Except.pure]
      | some gap => rfl
    · simp [he]

theorem KeyedLog.run_append {entries : List Entry} (hlast : k.last = entries.length)
    (hfault : k.faults.append = false) (hroom : entries.length + es.length < maxWord) :
    (KeyedLog.append es).run k =
      match (Log.extend entries es).2 with
      | none => .ok () { k with tree := k.tree.insertAll (stored es), last := k.last + es.length }
      | some gap => .error (.error (.storage (.log gap))) k := by
  have hword := maxWord_lt_wordSize
  have hbatch := KeyedLog.batch_eq hroom
  have hsum : sum (ε := Error) k.last 1 = .ok (entries.length + 1) := by
    rw [hlast]
    exact sum_eq_ok_iff.2 ⟨by omega, rfl⟩
  unfold KeyedLog.append
  show (if k.faults.append = true then _ else _ : Action KeyedLog Unit).run k = _
  rw [hfault]
  cases es with
  | nil => rfl
  | cons e es =>
    rw [hsum]
    show ((Action.ofExcept (KeyedLog.batch (entries.length + 1) (e :: es)) : Action KeyedLog _)
      >>= fun batch =>
        set { k with tree := k.tree.insertAll batch.1, last := batch.2 - 1 }).run k = _
    rw [hbatch]
    cases (Log.extend entries (e :: es)).2 with
    | none =>
      have hend : entries.length + 1 + (e :: es).length - 1 = k.last + (e :: es).length := by
        rw [hlast]
        omega
      show EStateM.Result.ok () _ = _
      rw [hend]
    | some gap => rfl

theorem Mirrors.run_keyed_append (h : Mirrors k l)
    (hroom : l.entries.length + es.length < maxWord) :
    (KeyedLog.append es).run k =
      match (Log.extend l.entries es).2 with
      | none => .ok () { k with tree := k.tree.insertAll (stored es), last := k.last + es.length }
      | some gap => .error (.error (.storage (.log gap))) k :=
  KeyedLog.run_append h.last (by rw [h.keyedFaults]) hroom

theorem KeyedLog.run_truncate (start : Nat) (hfault : k.faults.truncate = false) :
    (KeyedLog.truncate start).run k
      = .ok () { k with
        tree := k.tree.below (Key.encode start), last := min k.last (start - 1) } := by
  unfold KeyedLog.truncate
  show (if k.faults.truncate = true then _ else _ : Action KeyedLog Unit).run k = _
  rw [hfault]
  rfl

theorem Mirrors.run_list_append (h : Mirrors k l) (es : List Entry) :
    (Log.append es).run l =
      match Log.extend l.entries es with
      | (entries, none) => .ok () { l with entries := entries }
      | (entries, some gap) =>
        .error (.error (.storage (.log gap))) (if l.whole then l else { l with entries := entries })
      := by
  have hfaults : l.faults.append = false := by rw [h.faults]
  unfold Log.append
  show (if l.faults.append = true then _ else _ : Action Log Unit).run l = _
  rw [hfaults]
  cases Log.extend l.entries es with
  | mk entries fault =>
    cases fault with
    | none => rfl
    | some gap =>
      by_cases hwhole : l.whole = true
      · simp only [hwhole]
        rfl
      · simp only [hwhole]
        rfl

theorem Mirrors.append (h : Mirrors k l) (hes : Consecutive l.entries.length es)
    (hfits : ∀ e ∈ es, e.Fits) (hroom : l.entries.length + es.length < maxWord) :
    Mirrors { k with tree := k.tree.insertAll (stored es), last := k.last + es.length }
      { l with entries := l.entries ++ es } := by
  have hplaced : Consecutive 0 (l.entries ++ es) := by
    rw [consecutive_append, Nat.zero_add]
    exact ⟨h.placed, hes⟩
  have hall : ∀ e ∈ l.entries ++ es, e.Fits := by
    intro e he
    rcases List.mem_append.1 he with he | he
    · exact h.fits e he
    · exact hfits e he
  exact
    { items := insertAll_stored h.items hplaced hall
      last := by
        show k.last + es.length = (l.entries ++ es).length
        rw [h.last, List.length_append]
      placed := hplaced
      fits := hall
      room := by
        show (l.entries ++ es).length < maxWord
        rwa [List.length_append]
      keyedFaults := h.keyedFaults
      faults := h.faults }

/-- What continues the log is written to both. -/
theorem append_agree (h : Mirrors k l) (hes : Consecutive l.entries.length es)
    (hfits : ∀ e ∈ es, e.Fits) (hroom : l.entries.length + es.length < maxWord) :
    Agree (LogStore.append es) (LogStore.append es) k l := by
  have hextend := Log.extend_of_consecutive hes
  have hkeyed := h.run_keyed_append hroom
  have hlist := h.run_list_append es
  rw [hextend] at hkeyed hlist
  show Agree (KeyedLog.append es) (Log.append es) k l
  unfold Agree
  rw [hkeyed, hlist]
  exact ⟨rfl, h.append hes hfits hroom⟩

/-- What leaves a gap is refused by both, and the durable log stays as it was. -/
theorem append_gap (h : Mirrors k l) (hes : ¬ Consecutive l.entries.length es)
    (hroom : l.entries.length + es.length < maxWord) :
    ∃ fault, Gap l.entries.length es fault
      ∧ (LogStore.append es).run k = .error (.error (.storage (.log fault))) k
      ∧ Action.outcome ((LogStore.append es).run l) = .error (.error (.storage (.log fault))) := by
  obtain ⟨fault, hfault, hgap⟩ := Log.exists_gap hes
  have hkeyed := h.run_keyed_append hroom
  have hlist := h.run_list_append es
  refine ⟨fault, hfault, ?_, ?_⟩
  · rw [hgap] at hkeyed
    exact hkeyed
  · show Action.outcome ((Log.append es).run l) = _
    rw [hlist]
    cases hextend : Log.extend l.entries es with
    | mk entries found =>
      rw [hextend] at hgap
      obtain rfl : found = some fault := hgap
      rfl

/-! ## Merging -/

/-- Each entry has the index after that of the one before. -/
def Successive (es : List Entry) : Prop := es.IsChain fun a b => b.index = a.index + 1

instance (es : List Entry) : Decidable (Successive es) := by
  unfold Successive
  infer_instance

/-- Where the first of successive entries continues a list, all of them do. -/
theorem consecutive_of_successive {e : Entry} (h : Successive (e :: es)) (he : e.index = i + 1) :
    Consecutive i (e :: es) := by
  induction es generalizing e i with
  | nil => exact consecutive_cons.2 ⟨he, consecutive_nil⟩
  | cons x es ih =>
    obtain ⟨hx, hes⟩ := List.isChain_cons_cons.1 h
    exact consecutive_cons.2 ⟨he, ih hes (by omega)⟩

/-- Successive entries are written to both, or refused by both at the first of them. -/
theorem append_agree_of_successive (h : Mirrors k l) (hes : Successive es)
    (hfits : ∀ e ∈ es, e.Fits) (hroom : l.entries.length + es.length < maxWord) :
    Agree (LogStore.append es) (LogStore.append es) k l := by
  by_cases hplace : Consecutive l.entries.length es
  · exact append_agree h hplace hfits hroom
  · cases es with
    | nil => exact absurd consecutive_nil hplace
    | cons e rest =>
      have hfirst : ¬ e.index = l.entries.length + 1 := fun he =>
        hplace (consecutive_of_successive hes he)
      have hgap : Log.extend l.entries (e :: rest)
          = (l.entries, some (.gap e.index (l.entries.length + 1))) := by
        rw [Log.extend, if_neg hfirst]
      have hkeyed := h.run_keyed_append hroom
      have hlist := h.run_list_append (e :: rest)
      rw [hgap] at hkeyed hlist
      show Agree (KeyedLog.append (e :: rest)) (Log.append (e :: rest)) k l
      unfold Agree
      rw [hkeyed, hlist]
      refine ⟨rfl, ?_⟩
      show Mirrors k (if l.whole then l else l)
      rwa [ite_self]

theorem Mirrors.truncate (h : Mirrors k l) {start : Nat} (hstart : start < wordSize) :
    Mirrors { k with tree := k.tree.below (Key.encode start), last := min k.last (start - 1) }
      { l with entries := l.entries.take (start - 1) } where
  items := by
    show k.tree.items.filter (fun item => item.1 < Key.encode start)
      = stored (l.entries.take (start - 1))
    rw [h.items, below_stored h.fits hstart, h.placed.below_eq]
  last := by
    show min k.last (start - 1) = (l.entries.take (start - 1)).length
    rw [h.last, List.length_take, Nat.min_comm]
  placed := h.placed.take _
  fits := fun e he => h.fits e (List.mem_of_mem_take he)
  room := by
    have := h.room
    show (l.entries.take (start - 1)).length < maxWord
    rw [List.length_take]
    omega
  keyedFaults := h.keyedFaults
  faults := h.faults

theorem truncate_agree (h : Mirrors k l) {start : Nat} (hstart : start < wordSize) :
    Agree (LogStore.truncate start) (LogStore.truncate start) k l := by
  have hkeyed := KeyedLog.run_truncate start (by rw [h.keyedFaults] : k.faults.truncate = false)
  have hlist := Log.run_truncate start (by rw [h.faults] : l.faults.truncate = false)
  show Agree (KeyedLog.truncate start) (Log.truncate start) k l
  unfold Agree
  rw [hkeyed, hlist]
  exact ⟨rfl, h.truncate hstart⟩

theorem Mirrors.unknown_eq (h : Mirrors k l) (hfits : ∀ e ∈ es, e.Fits) :
    LogStore.unknown k es = LogStore.unknown l es :=
  unknown_congr fun e he => h.term?_eq (hfits e he).1

theorem eq_of_run_ofExcept {σ α : Type} {x : Except (Failure Error) α} {s s' : σ} {a : α}
    (h : (Action.ofExcept x).run s = .ok a s') : s' = s := by
  cases x with
  | ok b => exact (EStateM.Result.ok.inj h).2.symm
  | error f => cases h

theorem merge_agree (h : Mirrors k l) {prevIndex prevTerm commit : Nat}
    (hprev : prevIndex < wordSize) (hes : Successive es) (hfits : ∀ e ∈ es, e.Fits)
    (hroom : l.entries.length + es.length < maxWord) :
    Agree (LogStore.merge prevIndex prevTerm es commit)
      (LogStore.merge prevIndex prevTerm es commit) k l := by
  obtain ⟨known, hsplit, -, -⟩ := exists_known_append_unknown l es
  unfold LogStore.merge
  refine agree_get_bind ?_
  rw [h.prevTerm?_eq hprev]
  by_cases hterm : LogStore.prevTerm? l prevIndex = some prevTerm
  · rw [if_pos hterm, if_pos hterm]
    refine (agree_ofExcept h _).bind fun matched k' l' hrun h' => ?_
    obtain rfl := eq_of_run_ofExcept hrun
    rw [h.unknown_eq hfits]
    cases hunknown : LogStore.unknown l' es with
    | nil => exact agree_pure h' _
    | cons e rest =>
      -- the unknown end of the request is successive too
      rw [hunknown] at hsplit
      subst hsplit
      have hrest : Successive (e :: rest) := List.IsChain.right_of_append hes
      have hfrest : ∀ x ∈ e :: rest, x.Fits := fun x hx => hfits x (List.mem_append_right _ hx)
      have hfirst : e.index < wordSize := (hfrest e (by simp)).1
      rw [List.length_append] at hroom
      dsimp only
      rw [h.term?_eq hfirst]
      by_cases hsome : (LogStore.term? l' e.index).isSome = true
      · rw [if_pos hsome, if_pos hsome]
        by_cases hcommit : e.index ≤ commit
        · rw [if_pos hcommit, if_pos hcommit]
          exact (agree_fail h' _).bind fun _ _ _ hfail => by cases hfail
        · rw [if_neg hcommit, if_neg hcommit]
          -- after the cut the rest of the request has room
          refine (truncate_agree h' hfirst).bind fun _ k'' l'' hrun h'' => ?_
          have hcut : l''.entries = l'.entries.take (e.index - 1) :=
            (Log.truncate_ensures l' e.index).ok hrun
          have hshort : l''.entries.length + (e :: rest).length < maxWord := by
            rw [hcut, List.length_take]
            omega
          exact (append_agree_of_successive h'' hrest hfrest hshort).bind
            fun _ _ _ _ hend => agree_pure hend _
      · rw [if_neg hsome, if_neg hsome]
        exact (append_agree_of_successive h' hrest hfrest (by omega)).bind
          fun _ _ _ _ hend => agree_pure hend _
  · rw [if_neg hterm, if_neg hterm]
    exact agree_pure h _

end Raft
