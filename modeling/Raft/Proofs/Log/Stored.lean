import Raft.Log.Keyed
import Raft.Proofs.Codec.Values
import Raft.Proofs.Log.Key
import Raft.Proofs.Log.Merge

/-!
# Entries in a tree

A tree that holds entries under the keys of their indexes answers as the list of the entries does:
the order of the keys is the order of the indexes, and every value is read back. What a list without
gaps has at an index, below it and between two is what stands in these places.

* `stored es`: the items of entries.
* `lookup_stored`, `below_stored`, `between_stored`: the tree's reads, as reads of the list.
* `insertAll_stored`: entries that continue the list go to the end.
* `Consecutive.find?_eq`, `Consecutive.below_eq`, `Consecutive.between_eq`: reads by index are reads
  by place.
-/

namespace Raft

variable {es l : List Entry} {i k lo hi : Nat}

/-! ## Lists without gaps -/

/-- Of consecutive entries, the one at an index. -/
theorem Consecutive.find?_eq (h : Consecutive i l) :
    (l.find? fun e => e.index = k) = if k ≤ i then none else l[k - (i + 1)]? := by
  induction l generalizing i with
  | nil => simp
  | cons e l ih =>
    obtain ⟨he, hl⟩ := consecutive_cons.1 h
    by_cases hk : k = i + 1
    · simp [he, hk]
    · have hne : ¬ e.index = k := by omega
      simp only [List.find?_cons, hne, decide_false, ih hl]
      by_cases hle : k ≤ i
      · rw [if_pos (by omega), if_pos hle]
      · have hplace : k - (i + 1) = k - (i + 1 + 1) + 1 := by omega
        rw [if_neg (by omega), if_neg hle, hplace, List.getElem?_cons_succ]

theorem Consecutive.below_eq (h : Consecutive i l) :
    (l.filter fun e => e.index < k) = l.take (k - (i + 1)) := by
  induction l generalizing i with
  | nil => simp
  | cons e l ih =>
    obtain ⟨he, hl⟩ := consecutive_cons.1 h
    by_cases hk : i + 1 < k
    · have hsucc : k - (i + 1) = k - (i + 1 + 1) + 1 := by omega
      simp [he, hk, ih hl, hsucc]
    · have hzero : k - (i + 1) = 0 := by omega
      have hrest : k - (i + 1 + 1) = 0 := by omega
      simp [he, hk, ih hl, hzero, hrest]

theorem Consecutive.from_eq (h : Consecutive i l) :
    (l.filter fun e => k ≤ e.index) = l.drop (k - (i + 1)) := by
  induction l generalizing i with
  | nil => simp
  | cons e l ih =>
    obtain ⟨he, hl⟩ := consecutive_cons.1 h
    by_cases hk : k ≤ i + 1
    · have hzero : k - (i + 1) = 0 := by omega
      have hrest : k - (i + 1 + 1) = 0 := by omega
      simp [he, hk, ih hl, hzero, hrest]
    · have hsucc : k - (i + 1) = k - (i + 1 + 1) + 1 := by omega
      simp [he, hk, ih hl, hsucc]

theorem Consecutive.take (h : Consecutive i l) (k : Nat) : Consecutive i (l.take k) := by
  intro j e he
  rw [List.getElem?_take] at he
  split at he
  · exact h j e he
  · cases he

theorem Consecutive.between_eq (h : Consecutive i l) :
    (l.filter fun e => lo ≤ e.index ∧ e.index ≤ hi) = (l.take (hi - i)).drop (lo - (i + 1)) := by
  have hsplit : (l.filter fun e => lo ≤ e.index ∧ e.index ≤ hi)
      = (l.filter fun e => e.index < hi + 1).filter fun e => lo ≤ e.index := by
    rw [List.filter_filter]
    refine List.filter_congr fun e _ => ?_
    simp only [Bool.decide_and, Nat.lt_succ_iff]
  have hbound : hi + 1 - (i + 1) = hi - i := by omega
  rw [hsplit, h.below_eq, hbound, (h.take _).from_eq]

/-! ## The items of entries -/

/-- Entries in their wire form under the keys of their indexes. -/
def stored (es : List Entry) : List (Bytes × Bytes) :=
  es.map fun e => (Key.encode e.index, Codec.ofEntry e)

@[simp] theorem stored_nil : stored [] = [] := rfl

@[simp] theorem stored_cons {e : Entry} :
    stored (e :: es) = (Key.encode e.index, Codec.ofEntry e) :: stored es := rfl

@[simp] theorem stored_append : stored (es ++ l) = stored es ++ stored l := List.map_append

@[simp] theorem length_stored : (stored es).length = es.length := List.length_map ..

theorem lookup_stored (h : ∀ e ∈ es, e.Fits) (hk : k < wordSize) :
    (stored es).lookup (Key.encode k) = (es.find? fun e => e.index = k).map Codec.ofEntry := by
  induction es with
  | nil => rfl
  | cons e es ih =>
    obtain ⟨he, hes⟩ := List.forall_mem_cons.1 h
    have hkey := Key.encode_inj hk he.1
    by_cases heq : e.index = k
    · simp [heq]
    · have hne : (Key.encode k == Key.encode e.index) = false := by
        simp [hkey, Ne.symm heq]
      simp [List.lookup_cons, hne, heq, ih hes]

/-- What a test on keys leaves of stored entries. -/
theorem filter_stored (p : Bytes → Bool) (q : Nat → Bool)
    (h : ∀ e ∈ es, p (Key.encode e.index) = q e.index) :
    ((stored es).filter fun item => p item.1) = stored (es.filter fun e => q e.index) := by
  unfold stored
  rw [List.filter_map]
  exact congrArg _ (List.filter_congr h)

theorem below_stored (h : ∀ e ∈ es, e.Fits) (hk : k < wordSize) :
    ((stored es).filter fun item => item.1 < Key.encode k)
      = stored (es.filter fun e => e.index < k) := by
  refine filter_stored (fun key => key < Key.encode k) (fun index => index < k) fun e he => ?_
  simp only [Key.encode_lt_iff (h e he).1 hk]

theorem between_stored (h : ∀ e ∈ es, e.Fits) (hlo : lo < wordSize) (hhi : hi < wordSize) :
    ((stored es).filter fun item => Key.encode lo ≤ item.1 ∧ item.1 ≤ Key.encode hi)
      = stored (es.filter fun e => lo ≤ e.index ∧ e.index ≤ hi) := by
  refine filter_stored (fun key => Key.encode lo ≤ key ∧ key ≤ Key.encode hi)
    (fun index => lo ≤ index ∧ index ≤ hi) fun e he => ?_
  simp only [Key.encode_le_iff hlo (h e he).1, Key.encode_le_iff (h e he).1 hhi]

theorem place_of_lt {items : List (Bytes × Bytes)} {key value : Bytes}
    (h : ∀ item ∈ items, item.1 < key) :
    Tree.place key value items = items ++ [(key, value)] := by
  induction items with
  | nil => rfl
  | cons item items ih =>
    obtain ⟨hitem, hitems⟩ := List.forall_mem_cons.1 h
    simp [Tree.place, hitem, ih hitems]

/-- Entries that continue a list are put behind it. -/
theorem insertAll_stored {t : Tree} (ht : t.items = stored es) (h : Consecutive i (es ++ l))
    (hfits : ∀ e ∈ es ++ l, e.Fits) : (t.insertAll (stored l)).items = stored (es ++ l) := by
  induction l generalizing t es with
  | nil => simpa [Tree.insertAll] using ht
  | cons e l ih =>
    have hbelow : ∀ item ∈ t.items, item.1 < Key.encode e.index := by
      rw [ht]
      intro item hitem
      obtain ⟨x, hx, rfl⟩ := List.mem_map.1 hitem
      have hlt := index_lt_of_consecutive h hx
      exact (Key.encode_lt_iff (hfits x (by simp [hx])).1 (hfits e (by simp)).1).2 hlt
    have hinsert : (t.insert (Key.encode e.index) (Codec.ofEntry e)).items
        = stored (es ++ [e]) := by
      rw [Tree.insert, place_of_lt hbelow, ht]
      simp
    have hrest := ih hinsert (by simpa using h) (by simpa using hfits)
    simpa [Tree.insertAll] using hrest

/-! ## Reading entries back -/

namespace KeyedLog

theorem decode_ofEntry {e : Entry} (h : e.Fits) : decode (Codec.ofEntry e) = .ok e := by
  have hread := Codec.entry_inverts.reads e h []
  rw [List.append_nil] at hread
  unfold decode Codec.read
  rw [hread]
  rfl

theorem mapM_decode (h : ∀ e ∈ es, e.Fits) : ((stored es).map (·.2)).mapM decode = .ok es := by
  induction es with
  | nil => rfl
  | cons e es ih =>
    obtain ⟨he, hes⟩ := List.forall_mem_cons.1 h
    simp only [stored_cons, List.map_cons, List.mapM_cons, decode_ofEntry he, ih hes]
    rfl

theorem readable_stored (h : ∀ e ∈ es, e.Fits) : readable ((stored es).map (·.2)) = es := by
  induction es with
  | nil => rfl
  | cons e es ih =>
    obtain ⟨he, hes⟩ := List.forall_mem_cons.1 h
    have hhead : (decode (Codec.ofEntry e)).toOption = some e := by
      rw [decode_ofEntry he]
      rfl
    have htail := ih hes
    unfold readable at htail ⊢
    simp only [stored_cons, List.map_cons, List.filterMap_cons, hhead, htail]

end KeyedLog

end Raft
