import Raft.Proofs.Log.Mirror

/-!
# The durable log refines the log in memory

Whatever is asked of both, from two empty logs on, is answered alike: entries that continue the log
are appended, the log is cut anywhere, a leader's entries are merged in, the tree is opened again,
and everything is read in between. A list that leaves a gap is refused by both, and changes nothing
in the durable one.

* `LogQuery`, `LogCall`: what is asked of a log, with the answer of any store.
* `Suitable l calls`: what is asked of the calls, from the log in memory on.
* `keyed_log_refines_list_log` is the result.
-/

namespace Raft

/-- A question to a log. -/
inductive LogQuery where
  | entry (index : Nat)
  | term (index : Nat)
  | prevTerm (index : Nat)
  | lastIndex
  | lastId
  | size
  | isEmpty
  | range (lo hi : Nat)
  | firstIndexOf (term : Nat)
  | lastIndexOf (term : Nat)

/-- What a log gives back. -/
inductive LogAnswer where
  | done
  | matched (last : Option Nat)
  | entry (e : Option Entry)
  | entries (es : List Entry)
  | number (n : Option Nat)
  | position (id : LogId)
  | flag (b : Bool)
  deriving DecidableEq

/-- A call to a log. -/
inductive LogCall where
  | append (es : List Entry)
  | truncate (start : Nat)
  | merge (prevIndex prevTerm : Nat) (es : List Entry) (commit : Nat)
  | reopen
  | flush
  | ask (q : LogQuery)

section Store

variable {σ : Type} [LogStore σ]

def LogQuery.answer (s : σ) : LogQuery → Except Error LogAnswer
  | .entry index => (LogStore.entry? s index).map .entry
  | .term index => .ok (.number (LogStore.term? s index))
  | .prevTerm index => .ok (.number (LogStore.prevTerm? s index))
  | .lastIndex => .ok (.number (some (LogStore.lastIndex s)))
  | .lastId => .ok (.position (LogStore.lastId s))
  | .size => .ok (.number (some (LogStore.size s)))
  | .isEmpty => .ok (.flag (LogStore.isEmpty s))
  | .range lo hi => (LogStore.range s lo hi).map .entries
  | .firstIndexOf t => .ok (.number (LogStore.firstIndexOf? s t))
  | .lastIndexOf t => .ok (.number (LogStore.lastIndexOf? s t))

/-- Makes a call. How a log is opened again is the matter of each store. -/
def LogCall.perform (reopen : Action σ Unit) : LogCall → Action σ LogAnswer
  | .append es => do
    LogStore.append es
    return .done
  | .truncate start => do
    LogStore.truncate start
    return .done
  | .merge prevIndex prevTerm es commit => do
    return .matched (← LogStore.merge prevIndex prevTerm es commit)
  | .reopen => do
    reopen
    return .done
  | .flush => do
    Action.ofResult (LogStore.flush (← get))
    return .done
  | .ask q => do
    Action.ofResult (q.answer (← get))

/-- The answers to calls, made one after the other whether they fail or not. -/
def answers (reopen : Action σ Unit) : List LogCall → σ → List (Except (Failure Error) LogAnswer)
  | [], _ => []
  | c :: calls, s =>
    let result := (c.perform reopen).run s
    Action.outcome result :: answers reopen calls (Action.state result)

def after (reopen : Action σ Unit) : List LogCall → σ → σ
  | [], s => s
  | c :: calls, s => after reopen calls (Action.state ((c.perform reopen).run s))

end Store

def KeyedLog.reopen : Action KeyedLog Unit := do
  set (← Action.ofResult (KeyedLog.open (← get).tree))

/-- The log in memory outlives what uses it. -/
def Log.reopen : Action Log Unit := pure ()

/-! ## Suitable calls -/

/-- The entries can be stored, and the log has room for them. -/
def Log.Admits (l : Log) (es : List Entry) : Prop :=
  (∀ e ∈ es, e.Fits) ∧ l.entries.length + es.length < maxWord

instance (l : Log) (es : List Entry) : Decidable (l.Admits es) := by
  unfold Log.Admits
  infer_instance

/-- Indexes are words. Reading by term relies on terms that never decrease. -/
def LogQuery.Suits (l : Log) : LogQuery → Prop
  | .entry index | .term index | .prevTerm index => index < wordSize
  | .range lo hi => lo < wordSize ∧ hi < wordSize
  | .firstIndexOf _ | .lastIndexOf _ => l.entries.Pairwise fun a b => a.term ≤ b.term
  | .lastIndex | .lastId | .size | .isEmpty => True

/-- What is appended continues the log, and what is merged has no gap in itself. -/
def LogCall.Suits (l : Log) : LogCall → Prop
  | .append es => Consecutive l.entries.length es ∧ l.Admits es
  | .truncate start => start < wordSize
  | .merge prevIndex _ es _ => prevIndex < wordSize ∧ Successive es ∧ l.Admits es
  | .ask q => q.Suits l
  | .reopen | .flush => True

instance (l : Log) (q : LogQuery) : Decidable (q.Suits l) := by
  cases q <;> (unfold LogQuery.Suits; infer_instance)

instance (l : Log) (c : LogCall) : Decidable (c.Suits l) := by
  cases c <;> (unfold LogCall.Suits; infer_instance)

/-- Every call suits the log that the calls before it leave. -/
def Suitable (l : Log) : List LogCall → Prop
  | [] => True
  | c :: calls => c.Suits l ∧ Suitable (Action.state ((c.perform Log.reopen).run l)) calls

instance decidableSuitable : (l : Log) → (calls : List LogCall) → Decidable (Suitable l calls)
  | _, [] => isTrue trivial
  | l, c :: calls =>
    have := decidableSuitable (Action.state ((c.perform Log.reopen).run l)) calls
    inferInstanceAs (Decidable (_ ∧ _))

/-! ## One call -/

variable {k : KeyedLog} {l : Log}

theorem answer_eq (h : Mirrors k l) {q : LogQuery} (hq : q.Suits l) : q.answer k = q.answer l := by
  cases q with
  | entry index => simp only [LogQuery.answer, h.entry?_eq hq]
  | term index => simp only [LogQuery.answer, h.term?_eq hq]
  | prevTerm index => simp only [LogQuery.answer, h.prevTerm?_eq hq]
  | lastIndex => simp only [LogQuery.answer, h.lastIndex_eq]
  | lastId => simp only [LogQuery.answer, h.lastId_eq]
  | size => simp only [LogQuery.answer, h.size_eq]
  | isEmpty => simp only [LogQuery.answer, h.isEmpty_eq]
  | range lo hi => simp only [LogQuery.answer, h.range_eq hq.1 hq.2]
  | firstIndexOf term => simp only [LogQuery.answer, h.firstIndexOf?_eq hq]
  | lastIndexOf term => simp only [LogQuery.answer, h.lastIndexOf?_eq hq]

/-- The greatest key is that of the last entry: a tree is opened with the index it was left with. -/
theorem open_eq (h : Mirrors k l) : KeyedLog.open k.tree = .ok k := by
  have hlast : k.tree.last? = l.entries.getLast?.map fun e =>
      (Key.encode e.index, Codec.ofEntry e) := by
    unfold Tree.last?
    rw [h.items, stored, List.getLast?_map]
  have hfaults := h.keyedFaults
  have hcount := h.last
  unfold KeyedLog.open
  rw [hlast, List.getLast?_eq_getElem?]
  cases hentry : l.entries[l.entries.length - 1]? with
  | none =>
    have hempty : l.entries.length = 0 := by
      have := List.getElem?_eq_none_iff.1 hentry
      omega
    cases k
    simp_all
  | some e =>
    have hplace := (List.getElem?_eq_some_iff.1 hentry).1
    have hindex := h.placed _ e hentry
    have hnumber : e.index = k.last := by omega
    have hfits := (h.fits e (List.mem_of_getElem? hentry)).1
    have hdecode := Key.decode_encode hfits
    cases k
    simp_all

theorem perform_agree (h : Mirrors k l) {c : LogCall} (hc : c.Suits l) :
    Agree (c.perform KeyedLog.reopen) (c.perform Log.reopen) k l := by
  cases c with
  | append es =>
    obtain ⟨hplace, hfits, hroom⟩ := hc
    exact (append_agree h hplace hfits hroom).bind fun _ _ _ _ h' => agree_pure h' _
  | truncate start => exact (truncate_agree h hc).bind fun _ _ _ _ h' => agree_pure h' _
  | merge prevIndex prevTerm es commit =>
    obtain ⟨hprev, hes, hfits, hroom⟩ := hc
    exact (merge_agree h hprev hes hfits hroom).bind fun _ _ _ _ h' => agree_pure h' _
  | reopen =>
    have hrun : KeyedLog.reopen.run k = .ok () k := by
      show ((Action.ofResult (KeyedLog.open k.tree) : Action KeyedLog KeyedLog) >>= set).run k = _
      rw [open_eq h]
      rfl
    have hreopen : Agree KeyedLog.reopen Log.reopen k l := by
      unfold Agree
      rw [hrun]
      exact ⟨rfl, h⟩
    exact hreopen.bind fun _ _ _ _ h' => agree_pure h' _
  | flush =>
    refine agree_get_bind ?_
    rw [h.flush_eq]
    exact (agree_ofResult h _).bind fun _ _ _ _ h' => agree_pure h' _
  | ask q =>
    refine agree_get_bind ?_
    rw [answer_eq h hc]
    exact agree_ofResult h _

/-! ## All calls -/

theorem answers_agree {calls : List LogCall} (h : Mirrors k l) (hcalls : Suitable l calls) :
    answers KeyedLog.reopen calls k = answers Log.reopen calls l
      ∧ Mirrors (after KeyedLog.reopen calls k) (after Log.reopen calls l) := by
  induction calls generalizing k l with
  | nil => exact ⟨rfl, h⟩
  | cons c calls ih =>
    obtain ⟨hc, hrest⟩ := hcalls
    obtain ⟨hout, hmirror⟩ := perform_agree h hc
    obtain ⟨hanswers, hafter⟩ := ih hmirror hrest
    refine ⟨?_, hafter⟩
    simp only [answers, hout, hanswers]

/-- From two empty logs on, both answer every suitable call alike. At every point, what would leave
a gap is refused by both with the same error, and the durable log stays as it was. -/
theorem keyed_log_refines_list_log (calls : List LogCall) (h : Suitable {} calls) :
    answers KeyedLog.reopen calls {} = answers Log.reopen calls {}
      ∧ ∀ es, ¬ Consecutive (after Log.reopen calls {}).lastIndex es →
        (after Log.reopen calls {}).lastIndex + es.length < maxWord →
        ∃ fault, Gap (after Log.reopen calls {}).lastIndex es fault
          ∧ (LogStore.append es).run (after KeyedLog.reopen calls {})
            = .error (.error (.storage (.log fault))) (after KeyedLog.reopen calls {})
          ∧ Action.outcome ((LogStore.append es).run (after Log.reopen calls {}))
            = .error (.error (.storage (.log fault))) := by
  obtain ⟨hanswers, hmirror⟩ := answers_agree mirrors_empty h
  exact ⟨hanswers, fun es hgap hroom => append_gap hmirror hgap hroom⟩

/-- A log is filled, cut, opened again and brought in line with a leader's. -/
def overwritten : List LogCall :=
  [.append [.noop 1 1, .ofCommand 2 1 ⟨"a", 1, [7]⟩, .noop 3 2], .truncate 3, .reopen, .ask .lastId,
    .merge 2 1 [.noop 3 3, .ofCommand 4 3 ⟨"b", 1, [8, 9]⟩] 1, .merge 1 1 [.noop 2 4] 2,
    .ask (.range 0 9), .ask (.firstIndexOf 3), .ask (.lastIndexOf 2), .truncate 0, .reopen,
    .ask .isEmpty]

theorem keyed_log_refines_list_log_of_overwritten :
    Suitable {} overwritten ∧ answers KeyedLog.reopen overwritten {} =
      [.ok .done, .ok .done, .ok .done, .ok (.position ⟨2, 1⟩), .ok (.matched (some 4)),
        .error (.error (.replication (.committedConflict 2 2))),
        .ok (.entries [.noop 1 1, .ofCommand 2 1 ⟨"a", 1, [7]⟩, .noop 3 3,
          .ofCommand 4 3 ⟨"b", 1, [8, 9]⟩]),
        .ok (.number (some 3)), .ok (.number none), .ok .done, .ok .done, .ok (.flag true)] := by
  have h : Suitable {} overwritten := by decide +kernel
  refine ⟨h, ?_⟩
  rw [(keyed_log_refines_list_log overwritten h).1]
  decide +kernel

end Raft
