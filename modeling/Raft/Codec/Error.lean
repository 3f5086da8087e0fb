/-!
# Decoding failures

Why a byte string is not the encoding of a value.
-/

namespace Raft.Codec

/-- The first fault of a byte string that is not valid UTF-8: the number of bytes before it, and
the length of the faulty sequence, absent if the string ends inside a sequence. -/
structure Utf8Error where
  validUpTo : Nat
  length : Option Nat
  deriving DecidableEq, Repr

/-- Why decoding failed. -/
inductive DecodeError where
  /-- The bytes end inside a number, a flag or an element. -/
  | endOfInput
  /-- A text is longer than the bytes that are left. -/
  | textTooLong
  | badFlag (byte : Nat)
  | badOptionTag (byte : Nat)
  | badVariant (tag count : Nat)
  | badUtf8 (e : Utf8Error)
  /-- A failure described by its text alone. -/
  | other (text : String)
  deriving DecidableEq, Repr

def Utf8Error.message (e : Utf8Error) : String :=
  match e.length with
  | some n => s!"invalid utf-8 sequence of {n} bytes from index {e.validUpTo}"
  | none => s!"incomplete utf-8 byte sequence from index {e.validUpTo}"

def DecodeError.message : DecodeError → String
  | .endOfInput => "io error: unexpected end of file"
  | .textTooLong => "io error: "
  | .badFlag b => s!"invalid u8 while decoding bool, expected 0 or 1, found {b}"
  | .badOptionTag b => s!"tag for enum is not valid, found {b}"
  | .badVariant tag count =>
    s!"invalid value: integer \x60{tag}\x60, expected variant index 0 <= i < {count}"
  | .badUtf8 e => s!"string is not valid utf8: {e.message}"
  | .other text => text

end Raft.Codec
