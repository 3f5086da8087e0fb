import Raft.Entry
import Raft.Codec.Error

/-!
# Texts as bytes

Texts are stored in UTF-8. Reading checks every sequence: the number of continuation bytes, their
form, and that no character is written longer than needed, is a surrogate or lies beyond the last
code point. The first fault is reported with the number of valid bytes before it.
-/

namespace Raft.Codec.Utf8

def encode (s : String) : Bytes := s.toList.flatMap String.utf8EncodeChar

/-- What stands at the start of a byte string. -/
inductive Head where
  /-- A character, written with `width` bytes. -/
  | char (c : Char) (width : Nat)
  /-- A faulty sequence; the length is absent if the string ends inside a sequence. -/
  | fault (length : Option Nat)

def isContinuation (b : UInt8) : Bool := 0x80 ≤ b && b ≤ 0xBF

/-- The low six bits of a continuation byte. -/
def payloadBits (b : UInt8) : Nat := b.toNat % 64

/-- The second bytes allowed after the first byte of a sequence of three bytes. -/
def secondOfThree (first second : UInt8) : Bool :=
  if first = 0xE0 then 0xA0 ≤ second && second ≤ 0xBF
  else if first = 0xED then 0x80 ≤ second && second ≤ 0x9F
  else isContinuation second

/-- The second bytes allowed after the first byte of a sequence of four bytes. -/
def secondOfFour (first second : UInt8) : Bool :=
  if first = 0xF0 then 0x90 ≤ second && second ≤ 0xBF
  else if first = 0xF4 then 0x80 ≤ second && second ≤ 0x8F
  else isContinuation second

/-- The first character of a byte string that starts with `first`. -/
def head (first : UInt8) (rest : Bytes) : Head :=
  if first < 0x80 then .char (Char.ofNat first.toNat) 1
  else if first < 0xC2 then .fault (some 1)
  else if first < 0xE0 then
    match rest with
    | [] => .fault none
    | b :: _ =>
      if isContinuation b then .char (Char.ofNat (first.toNat % 32 * 64 + payloadBits b)) 2
      else .fault (some 1)
  else if first < 0xF0 then
    match rest with
    | [] => .fault none
    | b :: rest =>
      if secondOfThree first b then
        match rest with
        | [] => .fault none
        | c :: _ =>
          if isContinuation c then
            .char (Char.ofNat (first.toNat % 16 * 4096 + payloadBits b * 64 + payloadBits c)) 3
          else .fault (some 2)
      else .fault (some 1)
  else if first < 0xF5 then
    match rest with
    | [] => .fault none
    | b :: rest =>
      if secondOfFour first b then
        match rest with
        | [] => .fault none
        | c :: rest =>
          if isContinuation c then
            match rest with
            | [] => .fault none
            | d :: _ =>
              if isContinuation d then
                .char (Char.ofNat (first.toNat % 8 * 262144 + payloadBits b * 4096
                  + payloadBits c * 64 + payloadBits d)) 4
              else .fault (some 3)
          else .fault (some 2)
      else .fault (some 1)
  else .fault (some 1)

/-- The characters of a byte string, `start` bytes into a text. -/
def decodeFrom (start : Nat) (bytes : Bytes) : Except Utf8Error (List Char) :=
  match bytes with
  | [] => .ok []
  | first :: rest =>
    match head first rest with
    | .fault length => .error ⟨start, length⟩
    | .char c width => do
      let cs ← decodeFrom (start + width) (rest.drop (width - 1))
      return c :: cs
termination_by bytes.length
decreasing_by
  simp only [List.length_drop, List.length_cons]
  omega

def decode (bytes : Bytes) : Except Utf8Error String :=
  (decodeFrom 0 bytes).map String.ofList

end Raft.Codec.Utf8
