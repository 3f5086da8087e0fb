import Raft.Error
import Raft.Codec.Digits

/-!
# Keys of the stored log

An index is stored under a key of eight bytes, most significant first, so that the order of the
keys as byte strings is the order of the indexes.
-/

namespace Raft.Key

def encode (index : Nat) : Bytes := Codec.bigEndian 8 index

/-- The index of a key; a key has eight bytes. -/
def decode (key : Bytes) : Except Error Nat :=
  if key.length = 8 then .ok (Codec.ofBigEndian key)
  else .error (.storage (.keyLength key.length))

end Raft.Key
