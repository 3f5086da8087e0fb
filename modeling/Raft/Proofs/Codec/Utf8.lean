import Raft.Codec.Utf8
import Raft.Proofs.Action

/-!
# Texts and their bytes

Every character has one form, and a byte string that is read as a text is the form of that text.

* `head_utf8EncodeChar`: the bytes of a character are read as that character.
* `utf8EncodeChar_of_head`: what is read as a character are its bytes.
* `decode_encode`, `encode_of_decode`: the same for texts.
-/

namespace Raft.Codec.Utf8

variable {a b : UInt8} {rest bytes : Bytes} {c : Char} {width start : Nat}

/-! ## Bytes by their numbers -/

theorem isContinuation_iff : isContinuation b = true ↔ 0x80 ≤ b.toNat ∧ b.toNat ≤ 0xBF := by
  simp [isContinuation, UInt8.le_iff_toNat_le]

theorem secondOfThree_iff : secondOfThree a b = true ↔
    0x80 ≤ b.toNat ∧ b.toNat ≤ 0xBF ∧ (a.toNat = 0xE0 → 0xA0 ≤ b.toNat)
      ∧ (a.toNat = 0xED → b.toNat ≤ 0x9F) := by
  unfold secondOfThree
  simp only [← UInt8.toNat_inj, UInt8.reduceToNat]
  split
  · simp [UInt8.le_iff_toNat_le]
    omega
  · split
    · simp [UInt8.le_iff_toNat_le]
      omega
    · rw [isContinuation_iff]
      omega

theorem secondOfFour_iff : secondOfFour a b = true ↔
    0x80 ≤ b.toNat ∧ b.toNat ≤ 0xBF ∧ (a.toNat = 0xF0 → 0x90 ≤ b.toNat)
      ∧ (a.toNat = 0xF4 → b.toNat ≤ 0x8F) := by
  unfold secondOfFour
  simp only [← UInt8.toNat_inj, UInt8.reduceToNat]
  split
  · simp [UInt8.le_iff_toNat_le]
    omega
  · split
    · simp [UInt8.le_iff_toNat_le]
      omega
    · rw [isContinuation_iff]
      omega

theorem toNat_val_ofNat {n : Nat} (h : n.isValidChar) : (Char.ofNat n).val.toNat = n := by
  unfold Char.ofNat
  rw [dif_pos h]
  rfl

/-! ## The forms of a character -/

/-- The bytes of the character with a number, by how many there are. -/
inductive Spells (n : Nat) : Bytes → Prop
  | one {a : UInt8} (ha : a.toNat = n) (hn : n ≤ 0x7F) : Spells n [a]
  | two {a b : UInt8} (ha : a.toNat = n / 64 + 0xC0) (hb : b.toNat = n % 64 + 0x80)
      (hlow : 0x7F < n) (hhigh : n ≤ 0x7FF) : Spells n [a, b]
  | three {a b d : UInt8} (ha : a.toNat = n / 4096 + 0xE0) (hb : b.toNat = n / 64 % 64 + 0x80)
      (hd : d.toNat = n % 64 + 0x80) (hlow : 0x7FF < n) (hhigh : n ≤ 0xFFFF) :
      Spells n [a, b, d]
  | four {a b d e : UInt8} (ha : a.toNat = n / 262144 + 0xF0)
      (hb : b.toNat = n / 4096 % 64 + 0x80) (hd : d.toNat = n / 64 % 64 + 0x80)
      (he : e.toNat = n % 64 + 0x80) (hlow : 0xFFFF < n) : Spells n [a, b, d, e]

theorem spells_utf8EncodeChar (c : Char) : Spells c.val.toNat (String.utf8EncodeChar c) := by
  have hvalid := c.valid
  unfold String.utf8EncodeChar
  dsimp only
  split
  · exact .one (by simp only [UInt8.toNat_ofNat']; omega) (by omega)
  · split
    · refine .two ?_ ?_ (by omega) (by omega) <;> simp only [UInt8.toNat_ofNat'] <;> omega
    · split
      · refine .three ?_ ?_ ?_ (by omega) (by omega) <;> simp only [UInt8.toNat_ofNat'] <;> omega
      · refine .four ?_ ?_ ?_ ?_ (by omega) <;> simp only [UInt8.toNat_ofNat'] <;> omega

theorem Spells.unique {n : Nat} {s t : Bytes} (hs : Spells n s) (ht : Spells n t) : s = t := by
  cases hs <;> cases ht <;> first | omega | skip
  all_goals
    simp only [List.cons.injEq, and_true, ← UInt8.toNat_inj]
    omega

/-- The bytes of a character are read as that character. -/
theorem head_of_spells {s : Bytes} (h : Spells c.val.toNat s) (rest : Bytes) :
    ∃ first tail, s = first :: tail ∧ head first (tail ++ rest) = .char c s.length := by
  have hvalid := c.valid
  have hc : Char.ofNat c.val.toNat = c := Char.ofNat_toNat c
  cases h with
  | @one a ha hn =>
    refine ⟨a, [], rfl, ?_⟩
    unfold head
    simp only [UInt8.lt_iff_toNat_lt, UInt8.reduceToNat, ha]
    rw [if_pos (by omega), hc]
    rfl
  | @two a b ha hb hlow hhigh =>
    refine ⟨a, [b], rfl, ?_⟩
    have hn : a.toNat % 32 * 64 + payloadBits b = c.val.toNat := by
      unfold payloadBits
      omega
    unfold head
    simp only [UInt8.lt_iff_toNat_lt, UInt8.reduceToNat, List.cons_append, isContinuation_iff]
    rw [if_neg (by omega), if_neg (by omega), if_pos (by omega), if_pos (by omega), hn, hc]
    rfl
  | @three a b d ha hb hd hlow hhigh =>
    refine ⟨a, [b, d], rfl, ?_⟩
    have hn : a.toNat % 16 * 4096 + payloadBits b * 64 + payloadBits d = c.val.toNat := by
      unfold payloadBits
      omega
    unfold head
    simp only [UInt8.lt_iff_toNat_lt, UInt8.reduceToNat, List.cons_append, isContinuation_iff,
      secondOfThree_iff]
    rw [if_neg (by omega), if_neg (by omega), if_neg (by omega), if_pos (by omega),
      if_pos (by omega), if_pos (by omega), hn, hc]
    rfl
  | @four a b d e ha hb hd he hlow =>
    refine ⟨a, [b, d, e], rfl, ?_⟩
    have hn : a.toNat % 8 * 262144 + payloadBits b * 4096 + payloadBits d * 64 + payloadBits e
        = c.val.toNat := by
      unfold payloadBits
      omega
    unfold head
    simp only [UInt8.lt_iff_toNat_lt, UInt8.reduceToNat, List.cons_append, isContinuation_iff,
      secondOfFour_iff]
    rw [if_neg (by omega), if_neg (by omega), if_neg (by omega), if_neg (by omega),
      if_pos (by omega), if_pos (by omega), if_pos (by omega), if_pos (by omega), hn, hc]
    rfl

/-- What is read as a character is its form. -/
theorem spells_of_head (h : head a rest = .char c width) :
    ∃ tail more, rest = tail ++ more ∧ width = tail.length + 1
      ∧ Spells c.val.toNat (a :: tail) := by
  have hbound := a.toNat_lt
  revert h
  fun_cases head a rest with
  | case1 rest ha =>
    rintro ⟨⟩
    simp only [UInt8.lt_iff_toNat_lt, UInt8.reduceToNat] at ha
    refine ⟨[], rest, rfl, rfl, ?_⟩
    rw [toNat_val_ofNat (Or.inl (by omega))]
    exact .one rfl (by omega)
  | case4 h1 h2 h3 b more hb =>
    rintro ⟨⟩
    simp only [UInt8.lt_iff_toNat_lt, UInt8.reduceToNat, isContinuation_iff] at h1 h2 h3 hb
    refine ⟨[b], more, rfl, rfl, ?_⟩
    unfold payloadBits
    rw [toNat_val_ofNat (Or.inl (by omega))]
    exact .two (by omega) (by omega) (by omega) (by omega)
  | case8 h1 h2 h3 h4 b hb d more hd =>
    rintro ⟨⟩
    simp only [UInt8.lt_iff_toNat_lt, UInt8.reduceToNat, isContinuation_iff,
      secondOfThree_iff] at h1 h2 h3 h4 hb hd
    refine ⟨[b, d], more, rfl, rfl, ?_⟩
    unfold payloadBits
    have hvalid : (a.toNat % 16 * 4096 + b.toNat % 64 * 64 + d.toNat % 64).isValidChar := by
      unfold Nat.isValidChar
      omega
    rw [toNat_val_ofNat hvalid]
    exact .three (by omega) (by omega) (by omega) (by omega) (by omega)
  | case14 h1 h2 h3 h4 h5 b hb d hd e more he =>
    rintro ⟨⟩
    simp only [UInt8.lt_iff_toNat_lt, UInt8.reduceToNat, isContinuation_iff,
      secondOfFour_iff] at h1 h2 h3 h4 h5 hb hd he
    refine ⟨[b, d, e], more, rfl, rfl, ?_⟩
    unfold payloadBits
    have hvalid : (a.toNat % 8 * 262144 + b.toNat % 64 * 4096 + d.toNat % 64 * 64
        + e.toNat % 64).isValidChar := by
      unfold Nat.isValidChar
      omega
    rw [toNat_val_ofNat hvalid]
    exact .four (by omega) (by omega) (by omega) (by omega) (by omega)
  | _ => nofun

theorem head_utf8EncodeChar (c : Char) (rest : Bytes) :
    ∃ first tail, String.utf8EncodeChar c = first :: tail
      ∧ head first (tail ++ rest) = .char c (tail.length + 1) := by
  obtain ⟨first, tail, hs, hhead⟩ := head_of_spells (spells_utf8EncodeChar c) rest
  rw [hs] at hhead
  exact ⟨first, tail, hs, hhead⟩

theorem utf8EncodeChar_of_head (h : head a rest = .char c width) :
    ∃ tail more, rest = tail ++ more ∧ width = tail.length + 1
      ∧ String.utf8EncodeChar c = a :: tail := by
  obtain ⟨tail, more, hrest, hwidth, hspells⟩ := spells_of_head h
  exact ⟨tail, more, hrest, hwidth, (spells_utf8EncodeChar c).unique hspells⟩

/-! ## Texts -/

theorem decodeFrom_flatMap (cs : List Char) (start : Nat) :
    decodeFrom start (cs.flatMap String.utf8EncodeChar) = .ok cs := by
  induction cs generalizing start with
  | nil => simp [decodeFrom]
  | cons c cs ih =>
    obtain ⟨first, tail, hc, hhead⟩ :=
      head_utf8EncodeChar c (cs.flatMap String.utf8EncodeChar)
    rw [List.flatMap_cons, hc, List.cons_append, decodeFrom, hhead]
    dsimp only
    rw [Nat.add_sub_cancel, List.drop_left, ih]
    rfl

theorem flatMap_of_decodeFrom {cs : List Char}
    (h : decodeFrom start bytes = .ok cs) : cs.flatMap String.utf8EncodeChar = bytes := by
  fun_induction decodeFrom start bytes generalizing cs with
  | case1 =>
    obtain rfl := Except.ok.inj h
    rfl
  | case2 => cases h
  | case3 start first rest c width hhead ih =>
    obtain ⟨tail, more, rfl, rfl, hc⟩ := utf8EncodeChar_of_head hhead
    obtain ⟨ds, hds, hcs⟩ := exists_of_bind_eq_ok h
    obtain rfl : c :: ds = cs := Except.ok.inj hcs
    have hdrop : (tail ++ more).drop (tail.length + 1 - 1) = more := by simp
    rw [List.flatMap_cons, hc, ih hds, hdrop, List.cons_append]

/-- **Texts are read back from their bytes.** -/
theorem decode_encode (s : String) : decode (encode s) = .ok s := by
  simp [decode, encode, decodeFrom_flatMap, Except.map]

/-- **What is read as a text is the form of that text.** -/
theorem encode_of_decode {s : String} (h : decode bytes = .ok s) :
    encode s = bytes := by
  unfold decode at h
  cases hcs : decodeFrom 0 bytes with
  | error e =>
    rw [hcs] at h
    cases h
  | ok cs =>
    rw [hcs] at h
    obtain rfl := Except.ok.inj h
    simp [encode, flatMap_of_decodeFrom hcs]

end Raft.Codec.Utf8
