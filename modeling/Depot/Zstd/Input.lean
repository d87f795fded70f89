import Depot.Bytes

set_option autoImplicit false

namespace Depot.Zstd

/-- Why a byte string does not decompress. -/
inductive Fault where
  | incomplete
  | corrupt
deriving Repr, DecidableEq

def take (count : Nat) (input : Bytes) : Except Fault (Bytes × Bytes) :=
  let taken := input.take count
  if taken.length = count then .ok (taken, input.drop count) else .error .incomplete

/-- Splits a number of the given width off. -/
def takeNat (width : Nat) (input : Bytes) : Except Fault (Nat × Bytes) := do
  let (digits, rest) ← take width input
  return (Bytes.toNat digits, rest)

/-- The bytes that are left of an input, and how many there were before them. -/
structure Input where
  bytes : Bytes
  position : Nat

namespace Input

def start (bytes : Bytes) : Input := ⟨bytes, 0⟩

def take (input : Input) (count : Nat) : Except Fault (Bytes × Input) := do
  let (taken, rest) ← Zstd.take count input.bytes
  return (taken, ⟨rest, input.position + count⟩)

def takeNat (input : Input) (width : Nat) : Except Fault (Nat × Input) := do
  let (digits, rest) ← input.take width
  return (Bytes.toNat digits, rest)

end Input

end Depot.Zstd
