import Raft.Word
import Raft.Codec.Digits

/-!
# Numbers and their bytes

A number that fits into its width is read back from its bytes, and every byte string of that width
is the form of one number.

* `capacity w` counts the numbers of `w` bytes.
* `ofLittleEndian_littleEndian`, `littleEndian_ofLittleEndian`: writing and reading undo each other.
* `ofBigEndian_bigEndian`, `bigEndian_ofBigEndian`: so do they with the most significant byte first.
-/

namespace Raft.Codec

/-- How many numbers there are of `width` bytes. -/
def capacity : Nat → Nat
  | 0 => 1
  | width + 1 => 256 * capacity width

theorem capacity_eight : capacity 8 = wordSize := rfl

/-! ## Least significant byte first -/

theorem ofLittleEndian_lt (bytes : Bytes) : ofLittleEndian bytes < capacity bytes.length := by
  induction bytes with
  | nil => simp [ofLittleEndian, capacity]
  | cons b bytes ih =>
    have hb := b.toNat_lt
    simp only [ofLittleEndian, List.length_cons, capacity]
    omega

theorem ofLittleEndian_littleEndian {width n : Nat} (h : n < capacity width) :
    ofLittleEndian (littleEndian width n) = n := by
  induction width generalizing n with
  | zero =>
    simp only [capacity] at h
    simp only [littleEndian, ofLittleEndian]
    omega
  | succ width ih =>
    simp only [capacity] at h
    have hrest : n / 256 < capacity width := by omega
    simp only [littleEndian, ofLittleEndian, ih hrest, UInt8.toNat_ofNat']
    omega

theorem littleEndian_ofLittleEndian (bytes : Bytes) :
    littleEndian bytes.length (ofLittleEndian bytes) = bytes := by
  induction bytes with
  | nil => rfl
  | cons b bytes ih =>
    have hb := b.toNat_lt
    have hlow : (b.toNat + 256 * ofLittleEndian bytes) % 256 = b.toNat := by omega
    have hhigh : (b.toNat + 256 * ofLittleEndian bytes) / 256 = ofLittleEndian bytes := by omega
    simp only [List.length_cons, ofLittleEndian, littleEndian, hlow, hhigh, ih, UInt8.ofNat_toNat]

/-! ## Most significant byte first -/

theorem ofBigEndian_bigEndian {width n : Nat} (h : n < capacity width) :
    ofBigEndian (bigEndian width n) = n := by
  simp [ofBigEndian, bigEndian, ofLittleEndian_littleEndian h]

theorem ofBigEndian_lt (bytes : Bytes) : ofBigEndian bytes < capacity bytes.length := by
  simpa [ofBigEndian] using ofLittleEndian_lt bytes.reverse

theorem bigEndian_ofBigEndian (bytes : Bytes) :
    bigEndian bytes.length (ofBigEndian bytes) = bytes := by
  have hreverse := littleEndian_ofLittleEndian bytes.reverse
  rw [List.length_reverse] at hreverse
  rw [bigEndian, ofBigEndian, hreverse, List.reverse_reverse]

end Raft.Codec
