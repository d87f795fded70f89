import Depot.Bytes

set_option autoImplicit false

namespace Depot.Zstd.Checksum

def prime₁ : UInt64 := 0x9E3779B185EBCA87
def prime₂ : UInt64 := 0xC2B2AE3D27D4EB4F
def prime₃ : UInt64 := 0x165667B19E3779F9
def prime₄ : UInt64 := 0x85EBCA77C2B2AE63
def prime₅ : UInt64 := 0x27D4EB2F165667C5

def rotateLeft (word : UInt64) (count : UInt64) : UInt64 :=
  word <<< count ||| word >>> (64 - count)

/-- The number in the first `count` bytes of a byte string. -/
def lane (count : Nat) (bytes : Bytes) : UInt64 :=
  UInt64.ofNat (Bytes.toNat (bytes.take count))

def mix (accumulator lane : UInt64) : UInt64 :=
  rotateLeft (accumulator + lane * prime₂) 31 * prime₁

def merge (hash accumulator : UInt64) : UInt64 :=
  (hash ^^^ mix 0 accumulator) * prime₁ + prime₄

/-- The four accumulators after all stripes of 32 bytes, and what is left of the input. -/
def stripes (a b c d : UInt64) (bytes : Bytes) : (UInt64 × UInt64 × UInt64 × UInt64) × Bytes :=
  if bytes.drop 31 = [] then ((a, b, c, d), bytes)
  else
    stripes (mix a (lane 8 bytes)) (mix b (lane 8 (bytes.drop 8)))
      (mix c (lane 8 (bytes.drop 16))) (mix d (lane 8 (bytes.drop 24))) (bytes.drop 32)
termination_by bytes.length
decreasing_by
  simp_all only [List.drop_eq_nil_iff, List.length_drop]
  omega

def tail (hash : UInt64) : Bytes → UInt64
  | [] => hash
  | byte :: rest => tail (rotateLeft (hash ^^^ byte.toUInt64 * prime₅) 11 * prime₁) rest

/-- The bytes after the last stripe, in words of eight, then four, then one. -/
def finish (hash : UInt64) : Bytes → UInt64
  | a :: b :: c :: d :: e :: f :: g :: h :: rest =>
    finish (rotateLeft (hash ^^^ mix 0 (lane 8 [a, b, c, d, e, f, g, h])) 27 * prime₁ + prime₄) rest
  | a :: b :: c :: d :: rest =>
    tail (rotateLeft (hash ^^^ lane 4 [a, b, c, d] * prime₁) 23 * prime₂ + prime₃) rest
  | rest => tail hash rest

def avalanche (hash : UInt64) : UInt64 :=
  let hash := (hash ^^^ hash >>> 33) * prime₂
  let hash := (hash ^^^ hash >>> 29) * prime₃
  hash ^^^ hash >>> 32

def hash (bytes : Bytes) : UInt64 :=
  let length := UInt64.ofNat bytes.length
  if bytes.length < 32 then avalanche (finish (prime₅ + length) bytes)
  else
    let ((a, b, c, d), rest) := stripes (prime₁ + prime₂) prime₂ 0 (0 - prime₁) bytes
    let hash := rotateLeft a 1 + rotateLeft b 7 + rotateLeft c 12 + rotateLeft d 18
    let hash := merge (merge (merge (merge hash a) b) c) d
    avalanche (finish (hash + length) rest)

end Depot.Zstd.Checksum
