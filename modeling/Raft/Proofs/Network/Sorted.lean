import Raft.Proofs.Log.Sorted
import Raft.Proofs.Network.Matched

/-!
# The logs of a cluster are sorted

Every log of a cluster is a part of the log of some leader, of a term that its member has reached.
Such a log has its entries at the indexes from 1 on, in terms that never decrease and never exceed
the member's own, so that both stores read it by term exactly.

* `logs_are_sorted` is the result.
-/

namespace Raft.Network

open Protocol (Record)

variable {members : List NodeId} {n : Network} {r : Record} {p : NodeId}

theorem indexes_of_positioned {l : List Entry} (h : Positioned l) :
    l.map Entry.index = List.range' 1 l.length := by
  refine List.ext_getElem (by simp) fun i hi _ => ?_
  have hil : i < l.length := by simpa using hi
  have hindex := h (i + 1) l[i] (by rw [entryAt_succ, List.getElem?_eq_getElem hil])
  simp only [List.getElem_map, List.getElem_range', hindex]
  omega

namespace Sound

variable (h : Sound members n r)
include h

theorem rising (p : NodeId) : (n.log p).entries.Pairwise fun a b => a.term ≤ b.term := by
  obtain ⟨t, -, hpre⟩ := (h.core p).copied
  rw [core_log] at hpre
  exact (h.protocol.record.term t).rising.sublist hpre.sublist

theorem term_le (p : NodeId) : ∀ e ∈ (n.log p).entries, e.term ≤ n.term p := by
  obtain ⟨t, ht, hpre⟩ := (h.core p).copied
  rw [core_log] at hpre
  intro e he
  have hbound := (h.protocol.record.term t).bounded e (hpre.subset he)
  have hterm := h.core_term_le p
  exact Nat.le_trans hbound (Nat.le_trans ht hterm)

end Sound

/-- **Logs stay sorted.** The entries of a log have the indexes from 1 on, their terms never decrease
and never exceed the member's term. The member's log and every durable log with these entries find
the first and the last index of each term, and nothing exactly if there is no entry of the term. -/
theorem logs_are_sorted (cluster : List Member) (whole : NodeId → Bool) (acts : List Act)
    (p : NodeId) :
    let l := (run cluster whole acts).log p
    l.entries.map Entry.index = List.range' 1 l.lastIndex
      ∧ l.entries.Pairwise (fun a b => a.term ≤ b.term)
      ∧ (∀ e ∈ l.entries, e.term ≤ (run cluster whole acts).term p)
      ∧ FindsTerms l l.entries
      ∧ ∀ k : KeyedLog, KeyedLog.readable k.tree.values = l.entries → FindsTerms k l.entries := by
  intro l
  obtain ⟨r, -, h, -, -⟩ := exists_sound cluster whole acts []
  have hplace : Positioned l.entries := h.positioned p
  have hsorted := h.rising p
  refine ⟨indexes_of_positioned hplace, hsorted, h.term_le p, Log.findsTerms hplace hsorted, ?_⟩
  intro k hk
  rw [← hk] at hplace ⊢
  exact KeyedLog.findsTerms hplace (by rwa [hk])

/-- The second member's log, and a durable log to which the same entries were appended. -/
theorem logs_are_sorted_of_trio :
    let l := (run trio strict (electFirst ++ commitFirst)).log 2
    let k : KeyedLog := Action.state ((LogStore.append l.entries).run {})
    KeyedLog.readable k.tree.values = l.entries ∧ FindsTerms k l.entries
      ∧ k.lastIndexOf? 1 = some 2 ∧ k.lastIndexOf? 2 = none := by
  intro l k
  have hl : l.entries = [.noop 1 1, ⟨2, 1, .command ⟨"client", 1, [7]⟩⟩] := by
    show ((run trio strict (electFirst ++ commitFirst)).log 2).entries = _
    cbv
  have hread : KeyedLog.readable k.tree.values = l.entries := by
    refine KeyedLog.readable_append ?_ ?_ ?_ <;> rw [hl] <;> decide
  have h := (logs_are_sorted trio strict (electFirst ++ commitFirst) 2).2.2.2.2 k hread
  refine ⟨hread, h, (h.last 1 2).2 ⟨⟨⟨2, 1, .command ⟨"client", 1, [7]⟩⟩, ?_, rfl⟩, ?_⟩, (h.last_none 2).2 ?_⟩
  · rw [hl]
    exact rfl
  · rintro i ⟨e, he, -⟩
    have := (le_length_of_entryAt he).2
    rwa [hl] at this
  · rw [hl]
    decide

end Raft.Network
