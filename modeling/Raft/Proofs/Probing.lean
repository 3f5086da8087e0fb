import Raft.Proofs.Log.Probes
import Raft.Proofs.Pursuit

/-!
# How often a follower is probed

A leader sends an append request from an index on. If the follower rejects it, the leader reads the
hint and sends the next one from where it leads, until one is accepted. The position of the requests
moves down, and each rejection costs a term of the follower.

* `Pursuit.rejects_holds_iff`: a round is rejected exactly where the logs differ in term.
* `Rejections.le_budget` is the bound, `exists_accepts` says that a probe is accepted in the end.
* `rejections_le_terms` is the result.
-/

namespace Raft

open LawfulStore (Holds faults)

namespace Pursuit

/-- Nothing keeps a request from being taken over once its position is found: the stores work, the
sums are words, and what the follower committed is shared. -/
structure Unhindered {σ τ : Type} [LogStore σ] [LawfulStore σ] [LogStore τ] [LawfulStore τ]
    (s : Supplier σ) (c : Pursuit τ) (l f : List Entry) : Prop where
  readable : (faults s.log).read = false
  writable : faults c.log = {}
  limit : l.length + max 1 s.limit < wordSize
  fits : ∀ e ∈ l, e.Fits
  shared : c.commit ≤ sharedLength l f

variable {σ τ : Type} [LogStore σ] [LawfulStore σ] [LogStore τ] [LawfulStore τ] {s : Supplier σ}
  {c c' : Pursuit τ} {l f : List Entry} {n : Nat}

/-! ## One probe -/

/-- A round is rejected exactly if the follower's entries do not have the leader's term at the
position of the request. -/
theorem rejects_holds_iff (hl : Holds s.log l) (hf : Holds c.log f) :
    c.Rejects s c' ↔ ∃ q hint next, s.request c.next = .ok q
      ∧ termAt f q.prevIndex ≠ some q.prevTerm
      ∧ LogStore.conflictHint c.log q.prevIndex = .ok hint
      ∧ LogStore.nextAfterConflict s.log hint q.prevIndex = .ok next
      ∧ c' = { c with next } := by
  refine rejects_iff.trans (exists_congr fun q => exists_congr fun hint => exists_congr fun next =>
    and_congr_right fun hq => ?_)
  have hroom := LawfulStore.room hl
  have hword := maxWord_lt_wordSize
  have hle := le_length_of_termAt (position_of_appendRequest hl hq).2
  rw [LawfulStore.prevTerm?_eq hf (by omega)]

/-! ## All probes -/

section Terms

variable (hl : Holds s.log l) (hlsorted : l.Pairwise fun a b => a.term ≤ b.term)
include hl hlsorted

/-- A rejected probe leads to a position where the logs agree, or to one with a smaller budget. -/
theorem Rejects.cost (hf : Holds c.log f) (hfsorted : f.Pairwise fun a b => a.term ≤ b.term)
    (hstart : SameStarts l f) (h : c.Rejects s c') :
    Holds c'.log f ∧ termAt f (c.position l.length) ≠ termAt l (c.position l.length)
      ∧ 0 < c.position l.length
      ∧ (termAt f (c'.position l.length) = termAt l (c'.position l.length)
        ∨ budget f (c'.position l.length) < budget f (c.position l.length)) := by
  obtain ⟨q, hint, next, hq, hprev, hhint, hnext, rfl⟩ := (rejects_holds_iff hl hf).1 h
  obtain ⟨hindex, hterm⟩ := position_of_appendRequest hl hq
  have hplace : q.prevIndex = c.position l.length := hindex
  rw [hplace] at hterm hprev hhint hnext
  have hne : termAt f (c.position l.length) ≠ termAt l (c.position l.length) := by rwa [hterm]
  have hle : c.position l.length ≤ l.length := Nat.min_le_right _ _
  have hpos : 0 < c.position l.length := by
    refine Nat.pos_of_ne_zero fun hzero => hne ?_
    rw [hzero]
    rfl
  obtain ⟨-, hnextle, hcases⟩ := next_cases (LawfulStore.reads hl hlsorted)
    (LawfulStore.reads hf hfsorted) hstart hpos hle hne hhint hnext
  have hsame : position { c with next } l.length = next - 1 := by
    show min (next - 1) l.length = next - 1
    omega
  rw [hsame]
  exact ⟨hf, hne, hpos, hcases⟩

/-- Each rejection is paid for. -/
theorem Rejections.le_budget (hf : Holds c.log f)
    (hfsorted : f.Pairwise fun a b => a.term ≤ b.term) (hstart : SameStarts l f)
    (h : c.Rejections s n c') : n ≤ budget f (c.position l.length) := by
  induction h with
  | none => exact Nat.zero_le _
  | @more c c₁ c' n hreject hrest ih =>
    obtain ⟨hf₁, -, hpos, hcases⟩ := hreject.cost hl hlsorted hf hfsorted hstart
    have hn := ih hf₁
    rcases hcases with hagree | hlt
    · -- where the logs agree, nothing is rejected
      cases hrest with
      | none => exact budget_pos hpos
      | more hagain => exact absurd hagree (hagain.cost hl hlsorted hf₁ hfsorted hstart).2.1
    · omega

end Terms

/-- A probe at a position where the logs agree is accepted, if nothing stands in its way. -/
theorem accepts_of_termAt_eq (hl : Holds s.log l) (hf : Holds c.log f) (h : c.Unhindered s l f)
    (hagree : termAt f (c.position l.length) = termAt l (c.position l.length)) : c.Accepts s := by
  obtain ⟨q, hq, hpart, -⟩ :=
    exists_appendRequest hl h.readable h.limit s.leader s.term c.next s.commit
  have hwell := wellFormed_of_isPartOf hl h.fits hpart
  obtain ⟨hplace, hterm⟩ := position_of_appendRequest hl hq
  have hprev : termAt f q.prevIndex = some q.prevTerm := by
    rw [← hterm, hplace]
    exact hagree
  have hshared := le_sharedLength_iff.1 h.shared
  have hcommit : c.commit ≤ f.length := by
    have hle := hshared.2.length_le
    rwa [List.length_take, Nat.min_eq_left hshared.1] at hle
  -- what is committed is shared, so that the request does not contradict it
  have hclash : ∀ i, IsLeast (q.clashes f) i → c.commit < i := by
    rintro i ⟨⟨e, he, rfl, x, hx, hne⟩, -⟩
    by_contra hle
    obtain ⟨k, hk⟩ := List.getElem?_of_mem he
    have hel := entryAt_of_isPartOf hpart hk
    have hindex := LawfulStore.positioned hl _ _ hel
    rw [← hindex, ← entryAt_take (Nat.not_lt.1 hle)] at hel
    have hef := entryAt_of_isPrefix hshared.2 hel
    rw [hx] at hef
    exact hne (congrArg Entry.term (Option.some.inj hef))
  have hroom := LawfulStore.room hl
  have hword := maxWord_lt_wordSize
  have hle : q.last ≤ l.length := last_le_length_of_isPartOf hpart
  have hspec := merge_spec hf h.writable hwell hcommit
  have hmatched := (hspec.covered_iff q.last).2 ⟨hprev, hclash, rfl⟩
  obtain ⟨log, hmerge⟩ := Action.exists_of_outcome_eq_ok hmatched
  exact ⟨q, _, hq, round_of_match hq hmerge (by omega)⟩

/-- Where the logs do not agree the probe is rejected, and the next one is further down. -/
theorem exists_rejects_of_ne (hl : Holds s.log l) (hlsorted : l.Pairwise fun a b => a.term ≤ b.term)
    (hf : Holds c.log f) (h : c.Unhindered s l f)
    (hne : termAt f (c.position l.length) ≠ termAt l (c.position l.length)) :
    ∃ next, c.Rejects s { c with next }
      ∧ position { c with next } l.length < c.position l.length := by
  obtain ⟨q, hq, -⟩ :=
    exists_appendRequest hl h.readable h.limit s.leader s.term c.next s.commit
  obtain ⟨hplace, hterm⟩ := position_of_appendRequest hl hq
  have hprev : termAt f q.prevIndex ≠ some q.prevTerm := by
    rw [← hterm, hplace]
    exact hne
  have hpos : 0 < q.prevIndex := by
    refine Nat.pos_of_ne_zero fun hzero => hne ?_
    rw [show c.position l.length = 0 from hplace.symm.trans hzero]
    rfl
  obtain ⟨hint, hhint⟩ := exists_conflictHint hf q.prevIndex
  obtain ⟨next, hnext, hle⟩ := exists_nextAfterConflict hl hlsorted hint hpos
  refine ⟨next, (rejects_holds_iff hl hf).2 ⟨q, hint, next, hq, hprev, hhint, hnext, rfl⟩, ?_⟩
  show min (next - 1) l.length < min (c.next - 1) l.length
  omega

/-- After finitely many rejections, a probe is accepted. -/
theorem exists_accepts (hl : Holds s.log l) (hlsorted : l.Pairwise fun a b => a.term ≤ b.term)
    (hf : Holds c.log f) (h : c.Unhindered s l f) :
    ∃ n c', c.Rejections s n c' ∧ c'.Accepts s := by
  obtain ⟨n, c', -, hrejections, ⟨hf', h'⟩, hagree⟩ := exists_rejections (s := s)
    (I := fun c => Holds c.log f ∧ c.Unhindered s l f)
    (M := fun c => termAt f (c.position l.length) = termAt l (c.position l.length))
    (position · l.length)
    (fun c hc hne => by
      obtain ⟨next, hreject, hlt⟩ := exists_rejects_of_ne hl hlsorted hc.1 hc.2 hne
      exact ⟨_, hreject,
        ⟨hc.1, hc.2.readable, hc.2.writable, hc.2.limit, hc.2.fits, hc.2.shared⟩, hlt⟩)
    ⟨hf, h⟩
  exact ⟨n, c', hrejections, accepts_of_termAt_eq hl hf' h' hagree⟩

end Pursuit

/-- **Conflict hints skip whole terms.** In two logs that have the starts of their common terms in
common, at most one probe more is rejected than the follower has terms, from wherever the leader
starts. If nothing else stands in its way, the leader comes to a probe that is accepted. -/
theorem rejections_le_terms {σ τ : Type} [LogStore σ] [LawfulStore σ] [LogStore τ]
    [LawfulStore τ] (s : Supplier σ) (c : Pursuit τ) (l f : List Entry) (hl : Holds s.log l)
    (hf : Holds c.log f) (hlsorted : l.Pairwise fun a b => a.term ≤ b.term)
    (hfsorted : f.Pairwise fun a b => a.term ≤ b.term) (hstart : SameStarts l f) :
    (∀ n c', c.Rejections s n c' → n ≤ 1 + (f.map Entry.term).toFinset.card)
      ∧ (c.Unhindered s l f → ∃ n c', c.Rejections s n c' ∧ c'.Accepts s) := by
  constructor
  · intro n c' h
    exact Nat.le_trans (h.le_budget hl hlsorted hf hfsorted hstart) (budget_le f _)
  · exact Pursuit.exists_accepts hl hlsorted hf

/-- The next leader, which starts at the end of its log. -/
def successor : Supplier Log where
  log := { entries := renewed }
  leader := 1
  peer := 2
  term := 4
  commit := 2
  limit := 3

/-- The follower of the leader that was replaced. -/
def bereft : Pursuit KeyedLog where
  log := lapsedStore
  commit := 2
  next := 8

theorem unhindered_bereft : bereft.Unhindered successor renewed lapsed where
  readable := rfl
  writable := rfl
  limit := by decide
  fits := by decide
  shared := by decide

theorem rejections_le_terms_of_bereft :
    SameStarts renewed lapsed
      ∧ (∀ n c', bereft.Rejections successor n c' → n ≤ 3)
      ∧ ∃ n c', bereft.Rejections successor n c' ∧ c'.Accepts successor := by
  obtain ⟨hbound, haccepts⟩ := rejections_le_terms successor bereft renewed lapsed holds_renewed
    holds_lapsed (by decide) (by decide) (by decide)
  exact ⟨by decide, hbound, haccepts unhindered_bereft⟩

end Raft
