import Mathlib.Order.Bounds.Basic
import Raft.Log.Keyed
import Raft.Proofs.Log.Key

/-!
# Trees read by index

A tree orders its items by the bytes of their keys. Where these are keys of indexes, that is the
order of the indexes: in whatever order items were put into a tree, replaced and removed, it is
iterated from the lowest index to the greatest, a range of keys is the range of their indexes, and
the greatest key is that of the greatest index.

* `Tree.Write`: a change of a tree by index. `Tree.table writes` is what stands under an index then.
* `Tree.Holds t m`: the tree holds a table, each value under the key of its index.
* `Tree.Listing m items`: the items of a table from the lowest index on.
* `Tree.keys_in_order` is the result.
-/

namespace Raft.Tree

variable {items : List (Bytes × Bytes)} {item : Bytes × Bytes} {key value : Bytes}

/-! ## Items in the order of their keys -/

theorem mem_place (h : items.Pairwise fun a b => a.1 < b.1) :
    item ∈ place key value items ↔ item = (key, value) ∨ item.1 ≠ key ∧ item ∈ items := by
  induction items with
  | nil => simp [place]
  | cons first rest ih =>
    obtain ⟨hfirst, hrest⟩ := List.pairwise_cons.1 h
    -- what comes after a key that is not lower than the new one has another key
    have hbeyond : ∀ x ∈ rest, ¬ first.1 < key → x.1 ≠ key := by
      rintro x hx hnot rfl
      exact hnot (hfirst x hx)
    unfold place
    split
    · rename_i hlt
      have hne : first.1 ≠ key := by
        rintro rfl
        exact List.lt_irrefl _ hlt
      rw [List.mem_cons, ih hrest, List.mem_cons]
      constructor
      · rintro (rfl | rfl | ⟨hkey, hmem⟩)
        · exact Or.inr ⟨hne, Or.inl rfl⟩
        · exact Or.inl rfl
        · exact Or.inr ⟨hkey, Or.inr hmem⟩
      · rintro (rfl | ⟨hkey, rfl | hmem⟩)
        · exact Or.inr (Or.inl rfl)
        · exact Or.inl rfl
        · exact Or.inr (Or.inr ⟨hkey, hmem⟩)
    · rename_i hnot
      split
      · rename_i heq
        rw [List.mem_cons, List.mem_cons]
        constructor
        · rintro (rfl | hmem)
          · exact Or.inl rfl
          · exact Or.inr ⟨hbeyond item hmem hnot, Or.inr hmem⟩
        · rintro (rfl | ⟨hkey, rfl | hmem⟩)
          · exact Or.inl rfl
          · exact absurd heq hkey
          · exact Or.inr hmem
      · rename_i hne
        rw [List.mem_cons, List.mem_cons]
        constructor
        · rintro (rfl | rfl | hmem)
          · exact Or.inl rfl
          · exact Or.inr ⟨hne, Or.inl rfl⟩
          · exact Or.inr ⟨hbeyond item hmem hnot, Or.inr hmem⟩
        · rintro (rfl | ⟨-, hmem⟩)
          · exact Or.inl rfl
          · exact Or.inr hmem

theorem pairwise_place (h : items.Pairwise fun a b => a.1 < b.1) :
    (place key value items).Pairwise fun a b => a.1 < b.1 := by
  induction items with
  | nil => exact List.pairwise_singleton ..
  | cons first rest ih =>
    obtain ⟨hfirst, hrest⟩ := List.pairwise_cons.1 h
    unfold place
    split
    · rename_i hlt
      refine List.pairwise_cons.2 ⟨fun x hx => ?_, ih hrest⟩
      rcases (mem_place hrest).1 hx with rfl | ⟨-, hmem⟩
      · exact hlt
      · exact hfirst x hmem
    · rename_i hnot
      split
      · rename_i heq
        exact List.pairwise_cons.2 ⟨fun x hx => heq ▸ hfirst x hx, hrest⟩
      · rename_i hne
        have hlt : key < first.1 := Std.lt_of_le_of_ne (List.not_lt.1 hnot) (Ne.symm hne)
        refine List.pairwise_cons.2 ⟨fun x hx => ?_, h⟩
        rcases List.mem_cons.1 hx with rfl | hmem
        · exact hlt
        · exact List.lt_trans hlt (hfirst x hmem)

/-! ## Writing by index -/

/-- A change of a tree, by index. -/
inductive Write where
  | insert (index : Nat) (value : Bytes)
  | erase (index : Nat)
  /-- Removes what stands under an index and under every greater one. -/
  | cut (start : Nat)
  deriving DecidableEq, Repr

namespace Write

/-- The index that a change names. -/
def index : Write → Nat
  | .insert i _ => i
  | .erase i => i
  | .cut start => start

def run (t : Tree) : Write → Tree
  | .insert i v => t.insert (Key.encode i) v
  | .erase i => t.erase (Key.encode i)
  | .cut start => t.below (Key.encode start)

def update (m : Nat → Option Bytes) : Write → Nat → Option Bytes
  | .insert i v, k => if k = i then some v else m k
  | .erase i, k => if k = i then none else m k
  | .cut start, k => if k < start then m k else none

end Write

/-- The tree that changes leave of an empty one. -/
def runAll (writes : List Write) : Tree := writes.foldl Write.run {}

/-- What changes leave under each index. -/
def table (writes : List Write) : Nat → Option Bytes := writes.foldl Write.update fun _ => none

/-- The tree holds the table, each value under the key of its index. -/
structure Holds (t : Tree) (m : Nat → Option Bytes) : Prop where
  rising : t.items.Pairwise fun a b => a.1 < b.1
  mem_iff : ∀ item, item ∈ t.items ↔ ∃ i v, i < wordSize ∧ m i = some v ∧ item = (Key.encode i, v)
  fits : ∀ i v, m i = some v → i < wordSize

variable {t : Tree} {m : Nat → Option Bytes} {w : Write} {i : Nat}

theorem holds_empty : Holds {} fun _ => none where
  rising := List.Pairwise.nil
  mem_iff item := by simp
  fits i v hv := by cases hv

theorem Holds.insert (h : Holds t m) (hi : i < wordSize) :
    Holds (t.insert (Key.encode i) value) ((Write.insert i value).update m) where
  rising := pairwise_place h.rising
  mem_iff item := by
    show item ∈ place (Key.encode i) value t.items ↔ _
    rw [mem_place h.rising, h.mem_iff]
    simp only [Write.update]
    constructor
    · rintro (rfl | ⟨hne, k, v, hk, hv, rfl⟩)
      · exact ⟨i, value, hi, by simp, rfl⟩
      · have hki : k ≠ i := by
          rintro rfl
          exact hne rfl
        exact ⟨k, v, hk, by rw [if_neg hki, hv], rfl⟩
    · rintro ⟨k, v, hk, hv, rfl⟩
      split at hv
      · rename_i hki
        obtain rfl := Option.some.inj hv
        exact Or.inl (by rw [hki])
      · rename_i hki
        exact Or.inr ⟨fun he => hki ((Key.encode_inj hk hi).1 he), k, v, hk, hv, rfl⟩
  fits k v hv := by
    simp only [Write.update] at hv
    split at hv
    · rename_i hki
      exact hki ▸ hi
    · exact h.fits k v hv

theorem Holds.filter (h : Holds t m) {p : Bytes → Bool} {q : Nat → Prop} [DecidablePred q]
    (hpq : ∀ k, k < wordSize → (p (Key.encode k) = true ↔ q k)) :
    Holds ⟨t.items.filter fun item => p item.1⟩ fun k => if q k then m k else none where
  rising := h.rising.filter _
  mem_iff item := by
    simp only [List.mem_filter, h.mem_iff]
    constructor
    · rintro ⟨⟨k, v, hk, hv, rfl⟩, hp⟩
      exact ⟨k, v, hk, by rw [if_pos ((hpq k hk).1 hp), hv], rfl⟩
    · rintro ⟨k, v, hk, hv, rfl⟩
      split at hv
      · rename_i hq
        exact ⟨⟨k, v, hk, hv, rfl⟩, (hpq k hk).2 hq⟩
      · cases hv
  fits k v hv := by
    split at hv
    · exact h.fits k v hv
    · cases hv

theorem Holds.erase (h : Holds t m) (hi : i < wordSize) :
    Holds (t.erase (Key.encode i)) ((Write.erase i).update m) := by
  have hkept := h.filter (p := fun key => key ≠ Key.encode i) (q := fun k => k ≠ i) fun k hk => by
    simp [Key.encode_inj hk hi]
  have htable : (Write.erase i).update m = fun k => if k ≠ i then m k else none := by
    funext k
    by_cases hk : k = i <;> simp [Write.update, hk]
  rw [htable]
  exact hkept

theorem Holds.below (h : Holds t m) (hi : i < wordSize) :
    Holds (t.below (Key.encode i)) ((Write.cut i).update m) :=
  h.filter (p := fun key => key < Key.encode i) (q := fun k => k < i) fun k hk => by
    simp [Key.encode_lt_iff hk hi]

theorem Holds.run (h : Holds t m) (hw : w.index < wordSize) : Holds (w.run t) (w.update m) := by
  cases w with
  | insert i v => exact h.insert hw
  | erase i => exact h.erase hw
  | cut start => exact h.below hw

theorem holds_runAll {writes : List Write} (h : ∀ w ∈ writes, w.index < wordSize) :
    Holds (runAll writes) (table writes) := by
  have hall : ∀ (ws : List Write) t m, Holds t m → (∀ w ∈ ws, w.index < wordSize) →
      Holds (ws.foldl Write.run t) (ws.foldl Write.update m) := by
    intro ws
    induction ws with
    | nil => exact fun t m ht _ => ht
    | cons w ws ih =>
      intro t m ht hws
      obtain ⟨hw, hrest⟩ := List.forall_mem_cons.1 hws
      exact ih _ _ (ht.run hw) hrest
  exact hall writes _ _ holds_empty h

/-! ## Reading by index -/

/-- The items of a table, from the lowest index on. -/
structure Listing (m : Nat → Option Bytes) (items : List (Nat × Bytes)) : Prop where
  rising : items.Pairwise fun a b => a.1 < b.1
  mem_iff : ∀ i v, (i, v) ∈ items ↔ m i = some v

/-- An item under the key of its index. -/
def underKey (x : Nat × Bytes) : Bytes × Bytes := (Key.encode x.1, x.2)

/-- An item with its index in place of the key. -/
def byIndex (item : Bytes × Bytes) : Nat × Bytes := (Codec.ofBigEndian item.1, item.2)

theorem byIndex_encode (hi : i < wordSize) : byIndex (Key.encode i, value) = (i, value) := by
  unfold byIndex Key.encode
  rw [Codec.ofBigEndian_bigEndian (Codec.capacity_eight ▸ hi)]

theorem Holds.exists_listing (h : Holds t m) :
    ∃ items, Listing m items ∧ t.items = items.map underKey := by
  refine ⟨t.items.map byIndex, ⟨?_, fun i v => ?_⟩, ?_⟩
  · refine List.pairwise_map.2 (h.rising.imp_of_mem fun {a b} ha hb hlt => ?_)
    obtain ⟨i, v, hi, -, rfl⟩ := (h.mem_iff a).1 ha
    obtain ⟨j, u, hj, -, rfl⟩ := (h.mem_iff b).1 hb
    rw [byIndex_encode hi, byIndex_encode hj]
    exact (Key.encode_lt_iff hi hj).1 hlt
  · rw [List.mem_map]
    constructor
    · rintro ⟨item, hitem, heq⟩
      obtain ⟨j, u, hj, hu, rfl⟩ := (h.mem_iff item).1 hitem
      rw [byIndex_encode hj] at heq
      obtain ⟨rfl, rfl⟩ := Prod.mk.inj heq
      exact hu
    · intro hv
      have hi := h.fits i v hv
      exact ⟨_, (h.mem_iff _).2 ⟨i, v, hi, hv, rfl⟩, byIndex_encode hi⟩
  · rw [List.map_map]
    calc t.items = t.items.map id := (List.map_id _).symm
      _ = t.items.map (underKey ∘ byIndex) := List.map_congr_left fun item hitem => by
        obtain ⟨i, v, hi, -, rfl⟩ := (h.mem_iff item).1 hitem
        rw [Function.comp_apply, byIndex_encode hi, underKey, id]

section Listing

variable {listed : List (Nat × Bytes)} {v : Bytes}

theorem Listing.getLast?_eq_some_iff (h : Listing m listed) :
    listed.getLast? = some (i, v) ↔ m i = some v ∧ ∀ k u, m k = some u → k ≤ i := by
  constructor
  · intro hlast
    obtain ⟨before, rfl⟩ := List.getLast?_eq_some_iff.1 hlast
    refine ⟨(h.mem_iff i v).1 (by simp), fun k u hu => ?_⟩
    rcases List.mem_append.1 ((h.mem_iff k u).2 hu) with hmem | hmem
    · exact Nat.le_of_lt ((List.pairwise_append.1 h.rising).2.2 _ hmem (i, v) (by simp))
    · obtain ⟨rfl, -⟩ := Prod.mk.inj (List.mem_singleton.1 hmem)
      exact Nat.le_refl k
  · rintro ⟨hv, hmax⟩
    have hmem := (h.mem_iff i v).2 hv
    rcases List.eq_nil_or_concat listed with rfl | ⟨before, x, rfl⟩
    · cases hmem
    · rw [List.concat_eq_append] at hmem h ⊢
      rw [List.getLast?_concat]
      rcases List.mem_append.1 hmem with hbefore | hlast
      · have hlt := (List.pairwise_append.1 h.rising).2.2 _ hbefore x (by simp)
        have hle := hmax x.1 x.2 ((h.mem_iff x.1 x.2).1 (by simp))
        exact absurd hlt (Nat.not_lt.2 hle)
      · rw [List.mem_singleton.1 hlast]

/-- What is read of a tree, said of the items of its table. -/
structure ReadsAs (t : Tree) (listed : List (Nat × Bytes)) : Prop where
  iteration : t.items = listed.map underKey
  get : ∀ i < wordSize, t.get? (Key.encode i) = listed.lookup i
  range : ∀ lo < wordSize, ∀ hi < wordSize, t.range (Key.encode lo) (Key.encode hi)
    = (listed.filter fun x => lo ≤ x.1 ∧ x.1 ≤ hi).map (·.2)
  greatest : t.last? = listed.getLast?.map underKey
  opened : (KeyedLog.open t).map KeyedLog.last = .ok (listed.getLast?.elim 0 (·.1))

theorem lookup_underKey (h : ∀ x ∈ listed, x.1 < wordSize) (hi : i < wordSize) :
    (listed.map underKey).lookup (Key.encode i) = listed.lookup i := by
  induction listed with
  | nil => rfl
  | cons x rest ih =>
    obtain ⟨hx, hrest⟩ := List.forall_mem_cons.1 h
    have hkey : (Key.encode i == Key.encode x.1) = (i == x.1) := by
      rw [Bool.eq_iff_iff, beq_iff_eq, beq_iff_eq]
      exact Key.encode_inj hi hx
    rw [List.map_cons, underKey, List.lookup_cons, hkey, ih hrest, List.lookup_cons]

theorem readsAs_of_items (ht : t.items = listed.map underKey)
    (hfits : ∀ x ∈ listed, x.1 < wordSize) : ReadsAs t listed where
  iteration := ht
  get i hi := by
    unfold Tree.get?
    rw [ht, lookup_underKey hfits hi]
  range lo hlo hi hhi := by
    have hbetween : ∀ x ∈ listed, decide (Key.encode lo ≤ (underKey x).1
        ∧ (underKey x).1 ≤ Key.encode hi) = decide (lo ≤ x.1 ∧ x.1 ≤ hi) := fun x hx => by
      simp only [underKey, Key.encode_le_iff hlo (hfits x hx), Key.encode_le_iff (hfits x hx) hhi]
    unfold Tree.range
    rw [ht, List.filter_map, List.map_map]
    exact congrArg _ (List.filter_congr hbetween)
  greatest := by
    unfold Tree.last?
    rw [ht, List.getLast?_map]
  opened := by
    have hlast : t.last? = listed.getLast?.map underKey := by
      unfold Tree.last?
      rw [ht, List.getLast?_map]
    unfold KeyedLog.open
    rw [hlast]
    cases hx : listed.getLast? with
    | none => rfl
    | some x =>
      have hkey := Key.decode_encode (hfits x (List.mem_of_getLast? hx))
      simp only [Option.map_some, underKey, hkey]
      rfl

end Listing

/-- **The order of keys is the order of indexes.** Every index is read back from its key, two keys
are ordered as their indexes are, and the keys are the byte strings of eight bytes. So a tree that
was written to by index, in any order, is read by index: it is iterated from the lowest to the
greatest, finds a value and a range of them, and is opened with the greatest. -/
theorem keys_in_order :
    (∀ i < wordSize, Key.decode (Key.encode i) = .ok i)
      ∧ (∀ i < wordSize, ∀ j < wordSize, Key.encode i < Key.encode j ↔ i < j)
      ∧ (∀ key, ((∃ i, Key.decode key = .ok i) ↔ key.length = 8)
          ∧ ∀ i, Key.decode key = .ok i → Key.encode i = key)
      ∧ ∀ writes : List Write, (∀ w ∈ writes, w.index < wordSize) →
          ∃ listed, Listing (table writes) listed ∧ ReadsAs (runAll writes) listed
            ∧ ∀ key v, (runAll writes).last? = some (key, v) ↔ ∃ i, key = Key.encode i
              ∧ table writes i = some v ∧ ∀ k u, table writes k = some u → k ≤ i := by
  refine ⟨fun i hi => Key.decode_encode hi, fun i hi j hj => Key.encode_lt_iff hi hj,
    fun key => ⟨Key.exists_decode_iff, fun i hi => (Key.decode_eq_ok_iff.1 hi).2⟩,
    fun writes hwrites => ?_⟩
  have hholds := holds_runAll hwrites
  obtain ⟨listed, hlisting, hitems⟩ := hholds.exists_listing
  have hfits : ∀ x ∈ listed, x.1 < wordSize := fun x hx =>
    hholds.fits x.1 x.2 ((hlisting.mem_iff x.1 x.2).1 hx)
  have hreads := readsAs_of_items hitems hfits
  refine ⟨listed, hlisting, hreads, fun key v => ?_⟩
  rw [hreads.greatest, Option.map_eq_some_iff]
  constructor
  · rintro ⟨x, hx, heq⟩
    obtain ⟨rfl, rfl⟩ := Prod.mk.inj heq
    exact ⟨x.1, rfl, hlisting.getLast?_eq_some_iff.1 hx⟩
  · rintro ⟨i, rfl, hi⟩
    exact ⟨(i, v), hlisting.getLast?_eq_some_iff.2 hi, rfl⟩

/-- Indexes on both sides of a full byte, written out of order, one of them twice, and cut. -/
def scattered : List Write :=
  [.insert 256 [1], .insert 255 [2], .insert 65536 [3], .insert 1 [4], .insert 256 [5], .erase 1,
    .insert 257 [6], .cut 300]

theorem keys_in_order_of_scattered :
    (255 < wordSize ∧ 256 < wordSize ∧ Key.encode 255 < Key.encode 256)
      ∧ (∀ w ∈ scattered, w.index < wordSize)
      ∧ (runAll scattered).values = [[2], [5], [6]]
      ∧ ∃ listed, Listing (table scattered) listed ∧ ReadsAs (runAll scattered) listed := by
  have hkeys := keys_in_order
  have hwords : 255 < wordSize ∧ 256 < wordSize := by decide
  have hwrites : ∀ w ∈ scattered, w.index < wordSize := by decide
  obtain ⟨listed, hlisting, hreads, -⟩ := hkeys.2.2.2 scattered hwrites
  exact ⟨⟨hwords.1, hwords.2, (hkeys.2.1 255 hwords.1 256 hwords.2).2 (by decide)⟩, hwrites,
    by decide, listed, hlisting, hreads⟩

end Raft.Tree
