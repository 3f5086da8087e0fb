import Raft.Proofs.Log.Sorted

/-!
# Stores that keep a list of entries

The algorithms on a log store are the same for every store. What can be said of them needs no more
than that the store answers as a list of entries does, that what it writes changes the list in that
way, and that an operation that is made to fail leaves the store as it is.

* `LawfulStore σ`: the laws, around the relation `Holds s l`.
* The log in memory and the durable log are both lawful.
-/

namespace Raft

/-- Each store of this kind holds a list of entries, and works on it. -/
class LawfulStore (σ : Type) [LogStore σ] where
  /-- The store holds these entries, and there is room for one more index. -/
  Holds : σ → List Entry → Prop
  /-- The operations that are made to fail. -/
  faults : σ → LogFaults
  positioned : ∀ {s l}, Holds s l → Positioned l
  room : ∀ {s l}, Holds s l → l.length < maxWord
  lastIndex_eq : ∀ {s l}, Holds s l → LogStore.lastIndex s = l.length
  term?_eq : ∀ {s l i}, Holds s l → i < wordSize →
    LogStore.term? s i = (entryAt l i).map Entry.term
  findsTerms : ∀ {s l}, Holds s l → (l.Pairwise fun a b => a.term ≤ b.term) → FindsTerms s l
  range_eq : ∀ {s l lo hi}, Holds s l → (faults s).read = false → lo < wordSize → hi < wordSize →
    LogStore.range s lo hi = .ok ((l.take hi).drop (max lo 1 - 1))
  run_append : ∀ {s l es}, Holds s l → (faults s).append = false → Consecutive l.length es →
    (∀ e ∈ es, e.Fits) → l.length + es.length < maxWord →
    ∃ s', (LogStore.append es).run s = .ok () s' ∧ Holds s' (l ++ es) ∧ faults s' = faults s
  run_append_of_fault : ∀ {s} es, (faults s).append = true →
    (LogStore.append es).run s = .error (.error (LogFaults.error "append")) s
  run_truncate : ∀ {s l start}, Holds s l → (faults s).truncate = false → start < wordSize →
    ∃ s', (LogStore.truncate start).run s = .ok () s' ∧ Holds s' (l.take (start - 1))
      ∧ faults s' = faults s
  run_truncate_of_fault : ∀ {s} start, (faults s).truncate = true →
    (LogStore.truncate start).run s = .error (.error (LogFaults.error "truncate")) s

/-! ## The log in memory -/

instance : LawfulStore Log where
  Holds s l := s.entries = l ∧ Positioned l ∧ l.length < maxWord
  faults := Log.faults
  positioned h := h.2.1
  room h := h.2.2
  lastIndex_eq := by
    rintro s l ⟨rfl, -, -⟩
    rfl
  term?_eq := by
    rintro s l i ⟨rfl, -, -⟩ -
    rfl
  findsTerms := by
    rintro s l ⟨rfl, hplace, -⟩ hsorted
    exact Log.findsTerms hplace hsorted
  range_eq := by
    rintro s l lo hi ⟨rfl, -, -⟩ hread - -
    show Log.range s lo hi = _
    unfold Log.range
    rw [hread]
    rfl
  run_append := by
    rintro s l es ⟨rfl, hplace, -⟩ hfault hes - hroom
    refine ⟨_, Log.run_append hfault hes, ⟨rfl, hplace.append hes, ?_⟩, rfl⟩
    rwa [List.length_append]
  run_append_of_fault := by
    intro s es hfault
    show (Log.append es).run s = _
    unfold Log.append
    show (if s.faults.append = true then _ else _ : Action Log Unit).run s = _
    rw [if_pos hfault]
    rfl
  run_truncate := by
    rintro s l start ⟨rfl, hplace, hroom⟩ hfault -
    refine ⟨_, Log.run_truncate start hfault, ⟨rfl, hplace.take _, ?_⟩, rfl⟩
    rw [List.length_take]
    omega
  run_truncate_of_fault := by
    intro s start hfault
    show (Log.truncate start).run s = _
    unfold Log.truncate
    show (if s.faults.truncate = true then _ else _ : Action Log Unit).run s = _
    rw [if_pos hfault]
    rfl

/-! ## The durable log -/

namespace KeyedLog

/-- The durable log, when nothing is made to fail. -/
def sane (k : KeyedLog) : KeyedLog := { k with faults := {} }

/-- The durable log holds these entries: it mirrors the log in memory that does. -/
def Holds (k : KeyedLog) (l : List Entry) : Prop := Mirrors k.sane { entries := l }

variable {k : KeyedLog} {l es : List Entry}

theorem Holds.run_append (h : k.Holds l) (hfault : k.faults.append = false)
    (hes : Consecutive l.length es) (hfits : ∀ e ∈ es, e.Fits)
    (hroom : l.length + es.length < maxWord) :
    ∃ k', (LogStore.append es).run k = .ok () k' ∧ k'.Holds (l ++ es) ∧ k'.faults = k.faults := by
  have hlast : k.last = l.length := h.last
  have hrun := KeyedLog.run_append hlast hfault hroom
  rw [Log.extend_of_consecutive hes] at hrun
  exact ⟨_, hrun, h.append hes hfits hroom, rfl⟩

theorem Holds.run_truncate (h : k.Holds l) {start : Nat} (hfault : k.faults.truncate = false)
    (hstart : start < wordSize) :
    ∃ k', (LogStore.truncate start).run k = .ok () k' ∧ k'.Holds (l.take (start - 1))
      ∧ k'.faults = k.faults :=
  ⟨_, KeyedLog.run_truncate start hfault, h.truncate hstart, rfl⟩

end KeyedLog

instance : LawfulStore KeyedLog where
  Holds := KeyedLog.Holds
  faults := KeyedLog.faults
  positioned h := positioned_iff.2 h.placed
  room h := h.room
  lastIndex_eq h := h.last
  term?_eq h hi := h.term?_eq hi
  findsTerms := by
    intro k l h hsorted
    have hread : KeyedLog.readable k.tree.values = l := h.readable_eq
    have hfinds := KeyedLog.findsTerms (k := k) (hread ▸ positioned_iff.2 h.placed)
      (hread ▸ hsorted)
    rwa [hread] at hfinds
  range_eq := by
    intro k l lo hi h hread hlo hhi
    have hsane : KeyedLog.range k.sane lo hi = Log.range { entries := l } lo hi :=
      h.range_eq hlo hhi
    show KeyedLog.range k lo hi = _
    unfold KeyedLog.range at hsane ⊢
    rw [hread]
    exact hsane
  run_append h hfault hes hfits hroom := h.run_append hfault hes hfits hroom
  run_append_of_fault := by
    intro k es hfault
    show (KeyedLog.append es).run k = _
    unfold KeyedLog.append
    show (if k.faults.append = true then _ else _ : Action KeyedLog Unit).run k = _
    rw [if_pos hfault]
    rfl
  run_truncate h hfault hstart := h.run_truncate hfault hstart
  run_truncate_of_fault := by
    intro k start hfault
    show (KeyedLog.truncate start).run k = _
    unfold KeyedLog.truncate
    show (if k.faults.truncate = true then _ else _ : Action KeyedLog Unit).run k = _
    rw [if_pos hfault]
    rfl

end Raft
