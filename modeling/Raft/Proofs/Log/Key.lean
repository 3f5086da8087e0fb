import Raft.Log.Key
import Raft.Proofs.Codec.Digits

/-!
# The order of keys

The keys of indexes are ordered as the indexes are: bytes that come first count more.

* `Key.encode_lt_iff`, `Key.encode_le_iff`: the order of two keys.
* `Key.decode_encode`, `Key.decode_eq_ok_iff`: a key is read back, and nothing else is.
* `Key.exists_decode_iff`: what the keys are.
-/

namespace Raft

/-! ## Byte strings of one length -/

/-- A last byte decides between byte strings that are the same without it. -/
theorem append_lt_append_iff {x y : Bytes} {a b : UInt8} (h : x.length = y.length) :
    x ++ [a] < y ++ [b] ↔ x < y ∨ x = y ∧ a < b := by
  induction x generalizing y with
  | nil =>
    obtain rfl : y = [] := List.eq_nil_of_length_eq_zero h.symm
    simp [List.cons_lt_cons_iff]
  | cons c x ih =>
    cases y with
    | nil => simp at h
    | cons d y =>
      have hlength : x.length = y.length := by simpa using h
      simp only [List.cons_append, List.cons_lt_cons_iff, ih hlength, List.cons.injEq]
      grind

namespace Codec

theorem bigEndian_succ (width n : Nat) :
    bigEndian (width + 1) n = bigEndian width (n / 256) ++ [UInt8.ofNat (n % 256)] := by
  simp [bigEndian, littleEndian]

theorem bigEndian_injective {width m n : Nat} (hm : m < capacity width) (hn : n < capacity width)
    (h : bigEndian width m = bigEndian width n) : m = n := by
  rw [← ofBigEndian_bigEndian hm, h, ofBigEndian_bigEndian hn]

theorem bigEndian_lt_iff {width m n : Nat} (hm : m < capacity width) (hn : n < capacity width) :
    bigEndian width m < bigEndian width n ↔ m < n := by
  induction width generalizing m n with
  | zero =>
    simp only [capacity] at hm hn
    have : m = n := by omega
    simp [this, bigEndian, littleEndian]
  | succ width ih =>
    simp only [capacity] at hm hn
    have hm' : m / 256 < capacity width := by omega
    have hn' : n / 256 < capacity width := by omega
    have hhigh : bigEndian width (m / 256) = bigEndian width (n / 256) ↔ m / 256 = n / 256 :=
      ⟨bigEndian_injective hm' hn', fun h => by rw [h]⟩
    have hlow : UInt8.ofNat (m % 256) < UInt8.ofNat (n % 256) ↔ m % 256 < n % 256 := by
      simp only [UInt8.lt_iff_toNat_lt, UInt8.toNat_ofNat']
      omega
    rw [bigEndian_succ, bigEndian_succ, append_lt_append_iff (by simp), ih hm' hn', hhigh, hlow]
    omega

end Codec

/-! ## Keys -/

namespace Key

variable {i j : Nat}

theorem encode_lt_iff (hi : i < wordSize) (hj : j < wordSize) : encode i < encode j ↔ i < j :=
  Codec.bigEndian_lt_iff (Codec.capacity_eight ▸ hi) (Codec.capacity_eight ▸ hj)

theorem encode_le_iff (hi : i < wordSize) (hj : j < wordSize) : encode i ≤ encode j ↔ i ≤ j := by
  rw [← List.not_lt, encode_lt_iff hj hi, Nat.not_lt]

theorem encode_inj (hi : i < wordSize) (hj : j < wordSize) : encode i = encode j ↔ i = j :=
  ⟨Codec.bigEndian_injective (Codec.capacity_eight ▸ hi) (Codec.capacity_eight ▸ hj),
    fun h => by rw [h]⟩

theorem decode_encode (hi : i < wordSize) : decode (encode i) = .ok i := by
  have hlength : (encode i).length = 8 := Codec.length_bigEndian 8 i
  unfold decode
  rw [if_pos hlength]
  exact congrArg Except.ok (Codec.ofBigEndian_bigEndian (Codec.capacity_eight ▸ hi))

/-- A key is read as an index just if it is the key of that index. -/
theorem decode_eq_ok_iff {key : Bytes} : decode key = .ok i ↔ i < wordSize ∧ encode i = key := by
  constructor
  · intro h
    unfold decode at h
    split at h
    · rename_i hlength
      obtain rfl := Except.ok.inj h
      refine ⟨?_, ?_⟩
      · rw [← Codec.capacity_eight, ← hlength]
        exact Codec.ofBigEndian_lt key
      · rw [encode, ← hlength]
        exact Codec.bigEndian_ofBigEndian key
    · cases h
  · rintro ⟨hi, rfl⟩
    exact decode_encode hi

theorem exists_decode_iff {key : Bytes} : (∃ i, decode key = .ok i) ↔ key.length = 8 := by
  unfold decode
  split <;> simp_all

end Key

end Raft
