import Raft.Error
import Raft.Codec.Values

/-!
# Stored terms and votes

The durable store of the hard state keeps its wire form under one key.
-/

namespace Raft

/-- The durable place of a hard state; absent until something is stored. -/
structure HardStateCell where
  value : Option Bytes := none
  deriving Repr, Inhabited

namespace HardStateCell

/-- The stored hard state, if any. -/
def load (c : HardStateCell) : Except Error (Option HardState) :=
  match c.value with
  | none => .ok none
  | some bytes =>
    ((Codec.read Codec.hardState bytes).map some).mapError fun e => .storage (.decode e)

def save (_ : HardStateCell) (h : HardState) : HardStateCell := ⟨some (Codec.ofHardState h)⟩

def inspect (_ : HardStateCell) : String := Text.record "SledStateStorage" []

end HardStateCell

end Raft
