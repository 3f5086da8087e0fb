import Mathlib.Data.List.Perm.Basic
import Raft.Proofs.Apply.Waiters

/-!
# Waiting callers are conserved

Whatever is done to waiting callers, each leaves once: it is taken with the others of its index, all
are taken, or it is withdrawn. Nobody else is touched.

* `Waiters.items w`: the waiters with their indexes.
* `Waiters.Keyed w`: no index is there twice.
* `items_register`, `items_take`, `items_takeAll` and `items_cancel` say what each operation makes of
  the items.
-/

namespace Raft.Waiters

variable {w : Waiters} {i j : Nat} {x : Waiter} {ws rest : List Waiter}
  {l : List (Nat × List Waiter)}

/-! ## Lists by index -/

/-- What is kept, one by one. -/
def itemsOf (l : List (Nat × List Waiter)) : List (Nat × Waiter) :=
  l.flatMap fun item => item.2.map (item.1, ·)

theorem itemsOf_cons (item : Nat × List Waiter) (l : List (Nat × List Waiter)) :
    itemsOf (item :: l) = item.2.map (item.1, ·) ++ itemsOf l := List.flatMap_cons

theorem mem_itemsOf : (i, x) ∈ itemsOf l ↔ ∃ ws, (i, ws) ∈ l ∧ x ∈ ws := by
  unfold itemsOf
  rw [List.mem_flatMap]
  constructor
  · rintro ⟨⟨k, ws⟩, hws, hx⟩
    obtain ⟨y, hy, heq⟩ := List.mem_map.1 hx
    obtain ⟨rfl, rfl⟩ := Prod.mk.inj heq
    exact ⟨ws, hws, hy⟩
  · rintro ⟨ws, hws, hx⟩
    exact ⟨(i, ws), hws, List.mem_map_of_mem hx⟩

theorem map_snd_itemsOf (l : List (Nat × List Waiter)) :
    (itemsOf l).map (·.2) = l.flatMap (·.2) := by
  unfold itemsOf
  rw [List.map_flatMap]
  simp only [List.map_map, Function.comp_def, List.map_id']

theorem filter_eq_itemsOf (h : (l.map (·.1)).Nodup) (i : Nat) :
    (itemsOf l).filter (·.1 = i) = ((l.lookup i).getD []).map (i, ·) := by
  induction l with
  | nil => rfl
  | cons item rest ih =>
    obtain ⟨k, ws⟩ := item
    obtain ⟨hnew, hrest⟩ := List.nodup_cons.1 h
    rw [itemsOf_cons, List.filter_append, ih hrest, List.lookup_cons, List.filter_map]
    by_cases hk : i = k
    · subst hk
      have hnone : rest.lookup i = none := by
        rw [List.lookup_eq_none_iff]
        intro p hp
        simpa using fun hip : i = p.1 => hnew (hip ▸ List.mem_map.2 ⟨p, hp, rfl⟩)
      simp [hnone, Function.comp_def]
    · have hk' : (i == k) = false := by simpa using hk
      simp [hk', Function.comp_def, Ne.symm hk]

theorem filter_ne_itemsOf (l : List (Nat × List Waiter)) (i : Nat) :
    itemsOf (l.filter (·.1 ≠ i)) = (itemsOf l).filter (·.1 ≠ i) := by
  induction l with
  | nil => rfl
  | cons item rest ih =>
    obtain ⟨k, ws⟩ := item
    rw [itemsOf_cons, List.filter_append, ← ih, List.filter_map, List.filter_cons]
    by_cases hk : k = i
    · simp [hk, Function.comp_def]
    · simp [hk, Function.comp_def, itemsOf_cons]

theorem itemsOf_insertAt (i : Nat) (x : Waiter) (l : List (Nat × List Waiter)) :
    (itemsOf (insertAt i x l)).Perm ((i, x) :: itemsOf l) := by
  induction l with
  | nil => exact List.Perm.refl _
  | cons item rest ih =>
    obtain ⟨k, ws⟩ := item
    unfold insertAt
    by_cases hk : k = i
    · subst hk
      rw [if_pos rfl, itemsOf_cons, itemsOf_cons, List.map_append, List.append_assoc]
      exact List.perm_middle
    · rw [if_neg hk, itemsOf_cons, itemsOf_cons]
      exact (ih.append_left _).trans List.perm_middle

theorem keys_insertAt (h : (l.map (·.1)).Nodup) (i : Nat) (x : Waiter) :
    ((insertAt i x l).map (·.1)).Nodup
      ∧ ∀ k ∈ (insertAt i x l).map (·.1), k = i ∨ k ∈ l.map (·.1) := by
  induction l with
  | nil => simp [insertAt]
  | cons item rest ih =>
    obtain ⟨k, ws⟩ := item
    obtain ⟨hnew, hrest⟩ := List.nodup_cons.1 h
    unfold insertAt
    by_cases hk : k = i
    · rw [if_pos hk]
      exact ⟨h, fun _ hj => Or.inr hj⟩
    · rw [if_neg hk]
      obtain ⟨hnodup, hkeys⟩ := ih hrest
      refine ⟨List.nodup_cons.2 ⟨fun hmem => ?_, hnodup⟩, fun j hj => ?_⟩
      · exact (hkeys k hmem).elim hk hnew
      · rcases List.mem_cons.1 hj with rfl | hj
        · exact Or.inr (List.mem_cons_self ..)
        · exact (hkeys j hj).imp id (List.mem_cons_of_mem _)

/-- A waiter is overwritten with the last one, which is dropped. -/
theorem perm_set_dropLast (front back : List Waiter) {last : Waiter}
    (h : (front ++ x :: back).getLast? = some last) :
    (front ++ x :: back).Perm (x :: ((front ++ x :: back).set front.length last).dropLast) := by
  have hset : (front ++ x :: back).set front.length last = front ++ last :: back := by simp
  rw [hset]
  rcases List.eq_nil_or_concat back with rfl | ⟨middle, z, rfl⟩
  · rw [List.dropLast_concat]
    exact List.perm_append_singleton x front
  · rw [List.concat_eq_append] at h ⊢
    have hz : z = last := by
      rw [← List.cons_append, ← List.append_assoc, List.getLast?_concat] at h
      exact Option.some.inj h
    have hdrop : (front ++ last :: (middle ++ [z])).dropLast = front ++ last :: middle := by
      rw [← List.cons_append, ← List.append_assoc, List.dropLast_concat]
    rw [hdrop, hz]
    refine List.perm_middle.trans (List.Perm.cons x ?_)
    exact (List.perm_append_singleton last middle).append_left front

/-- The first item that passes the test leaves, and the others stay. -/
theorem perm_of_swapOut {p : Waiter → Bool} (h : swapOut p ws = some (x, rest)) :
    p x = true ∧ ws.Perm (x :: rest) := by
  unfold swapOut at h
  split at h
  · cases h
  · rename_i k hk
    split at h
    · rename_i y last hy hlast
      obtain ⟨rfl, rfl⟩ := Prod.mk.inj (Option.some.inj h)
      obtain ⟨hlt, hp, -⟩ := List.findIdx?_eq_some_iff_getElem.1 hk
      have hget : ws[k] = y := Option.some.inj ((List.getElem?_eq_getElem hlt).symm.trans hy)
      refine ⟨hget ▸ hp, ?_⟩
      have hws : ws.take k ++ y :: ws.drop (k + 1) = ws := by
        rw [← hget, List.getElem_cons_drop, List.take_append_drop]
      have hperm := perm_set_dropLast (ws.take k) (ws.drop (k + 1)) (hws.symm ▸ hlast)
      rwa [hws, List.length_take, Nat.min_eq_left (Nat.le_of_lt hlt)] at hperm
    · cases h

theorem filter_ne_of_notMem (h : i ∉ l.map (·.1)) : l.filter (·.1 ≠ i) = l := by
  rw [List.filter_eq_self]
  intro item hitem
  simpa using fun heq : item.1 = i => h (heq ▸ List.mem_map_of_mem hitem)

theorem itemsOf_setAt (h : (l.map (·.1)).Nodup) (hi : i ∈ l.map (·.1)) :
    (itemsOf (setAt i rest l)).Perm (rest.map (i, ·) ++ (itemsOf l).filter (·.1 ≠ i)) := by
  unfold setAt
  split
  · rw [filter_ne_itemsOf]
    exact List.Perm.refl _
  · induction l with
    | nil => cases hi
    | cons item tail ih =>
      obtain ⟨k, ws⟩ := item
      obtain ⟨hnew, htail⟩ := List.nodup_cons.1 h
      rw [List.map_cons, itemsOf_cons, itemsOf_cons, List.filter_append, List.filter_map]
      by_cases hk : k = i
      · -- the list of the index is found, and no other has it
        subst hk
        have hsame : tail.map (fun item => if item.1 = k then (k, rest) else item) = tail := by
          refine (List.map_congr_left fun item hitem => ?_).trans (List.map_id tail)
          rw [if_neg]
          · rfl
          · exact fun heq => hnew (List.mem_map.2 ⟨item, hitem, heq⟩)
        rw [hsame, ← filter_ne_itemsOf, filter_ne_of_notMem hnew]
        simp [Function.comp_def]
      · have hkeep : ws.filter ((fun item : Nat × Waiter => decide (item.1 ≠ i)) ∘ (k, ·)) = ws := by
          simp [Function.comp_def, hk]
        rw [if_neg hk, hkeep]
        have hi' : i ∈ tail.map (·.1) := (List.mem_cons.1 hi).resolve_left (Ne.symm hk)
        refine ((ih htail hi').append_left _).trans ?_
        rw [← List.append_assoc, ← List.append_assoc]
        exact List.perm_append_comm.append_right _

theorem keys_setAt (h : (l.map (·.1)).Nodup) : ((setAt i rest l).map (·.1)).Nodup := by
  unfold setAt
  split
  · exact h.sublist (List.filter_sublist.map _)
  · have hkeys : (l.map fun item => if item.1 = i then (i, rest) else item).map (·.1)
        = l.map (·.1) := by
      rw [List.map_map]
      refine List.map_congr_left fun item _ => ?_
      show (if item.1 = i then (i, rest) else item).1 = item.1
      split
      · rename_i heq
        exact heq.symm
      · rfl
    rwa [hkeys]

/-! ## Operations -/

/-- The waiters with their indexes. -/
def items (w : Waiters) : List (Nat × Waiter) := itemsOf w.byIndex

/-- No index is there twice. -/
def Keyed (w : Waiters) : Prop := (w.byIndex.map (·.1)).Nodup

theorem has_iff_mem_items : w.Has i x ↔ (i, x) ∈ w.items := mem_itemsOf.symm

theorem all_eq (w : Waiters) : w.all = w.items.map (·.2) := (map_snd_itemsOf w.byIndex).symm

theorem keyed_empty : Keyed {} := List.nodup_nil

theorem Keyed.filter_eq (h : w.Keyed) (i : Nat) :
    w.items.filter (·.1 = i) = (w.on i).map (i, ·) := filter_eq_itemsOf h i

theorem items_register (w : Waiters) (i : Nat) (x : Waiter) :
    (w.register i x).items.Perm ((i, x) :: w.items) := itemsOf_insertAt i x w.byIndex

theorem Keyed.register (h : w.Keyed) (i : Nat) (x : Waiter) : (w.register i x).Keyed :=
  (keys_insertAt h i x).1

theorem items_take (w : Waiters) (i : Nat) :
    (w.take i).2.items = w.items.filter (·.1 ≠ i) := filter_ne_itemsOf w.byIndex i

theorem Keyed.perm_on (h : w.Keyed) (i : Nat) :
    w.items.Perm ((w.on i).map (i, ·) ++ w.items.filter (·.1 ≠ i)) := by
  rw [← h.filter_eq]
  simpa using (List.filter_append_perm (fun item : Nat × Waiter => item.1 = i) w.items).symm

theorem Keyed.perm_take (h : w.Keyed) (i : Nat) :
    w.items.Perm ((w.take i).1.map (i, ·) ++ (w.take i).2.items) := by
  rw [items_take]
  exact h.perm_on i

theorem Keyed.take (h : w.Keyed) (i : Nat) : (w.take i).2.Keyed :=
  h.sublist (List.filter_sublist.map _)

/-- A withdrawal takes away at most one waiter, of the request that is named. -/
theorem Keyed.cancel (h : w.Keyed) (request : String) :
    (w.cancel request).2.Keyed
      ∧ ((w.cancel request).1 = none ∧ (w.cancel request).2.items = w.items
        ∨ ∃ i x, (w.cancel request).1 = some x ∧ x.request = request
          ∧ w.items.Perm ((i, x) :: (w.cancel request).2.items)) := by
  unfold Waiters.cancel
  split
  · exact ⟨h, Or.inl ⟨rfl, rfl⟩⟩
  · rename_i i hi
    dsimp only
    split
    · exact ⟨h, Or.inl ⟨rfl, rfl⟩⟩
    · rename_i x rest hswap
      obtain ⟨hrequest, hperm⟩ := perm_of_swapOut hswap
      refine ⟨keys_setAt h, Or.inr ⟨i, x, rfl, by simpa using hrequest, ?_⟩⟩
      have hon : x ∈ w.on i := hperm.mem_iff.2 (List.mem_cons_self ..)
      obtain ⟨ws, hws, -⟩ := has_of_mem_on hon
      have hset : (itemsOf (setAt i rest w.byIndex)).Perm
          (rest.map (i, ·) ++ w.items.filter (·.1 ≠ i)) := itemsOf_setAt h (List.mem_map_of_mem hws)
      calc w.items.Perm ((w.on i).map (i, ·) ++ w.items.filter (·.1 ≠ i)) := h.perm_on i
        _ |>.Perm ((i, x) :: rest.map (i, ·) ++ w.items.filter (·.1 ≠ i)) :=
          (hperm.map (i, ·)).append_right _
        _ |>.Perm ((i, x) :: itemsOf (setAt i rest w.byIndex)) := hset.symm.cons (i, x)

/-- Index by index, whoever is taken is not kept. -/
theorem Keyed.foldl_take (h : w.Keyed) (indexes : List Nat) (taken : List Waiter) :
    let r := indexes.foldl (fun acc i => (acc.1 ++ (acc.2.take i).1, (acc.2.take i).2)) (taken, w)
    (taken ++ w.all).Perm (r.1 ++ r.2.all)
      ∧ r.2.byIndex = w.byIndex.filter fun item => item.1 ∉ indexes := by
  induction indexes generalizing taken w with
  | nil => exact ⟨List.Perm.refl _, by simp⟩
  | cons i rest ih =>
    obtain ⟨hperm, hrest⟩ := ih (h.take i) (taken ++ (w.take i).1)
    constructor
    · refine List.Perm.trans ?_ hperm
      have hitems := (h.perm_take i).map (·.2)
      rw [List.map_append, List.map_map, ← all_eq, ← all_eq] at hitems
      rw [List.append_assoc]
      simpa [Function.comp_def] using hitems.append_left taken
    · refine hrest.trans ?_
      show (w.byIndex.filter (·.1 ≠ i)).filter _ = _
      rw [List.filter_filter]
      refine List.filter_congr fun item _ => ?_
      simp [Bool.and_comm]

theorem Keyed.takeAll (h : w.Keyed) : w.all.Perm w.takeAll.1 ∧ w.takeAll.2.byIndex = [] := by
  obtain ⟨hperm, hrest⟩ := h.foldl_take (w.byIndex.map (·.1)) []
  have hnone : w.takeAll.2.byIndex = [] := by
    refine hrest.trans (List.filter_eq_nil_iff.2 fun item hitem => ?_)
    simpa using ⟨item.2, hitem⟩
  refine ⟨?_, hnone⟩
  have hall : w.takeAll.2.all = [] := by
    unfold all
    rw [hnone]
    rfl
  have hperm : w.all.Perm (w.takeAll.1 ++ w.takeAll.2.all) := hperm
  rwa [hall, List.append_nil] at hperm

end Raft.Waiters
