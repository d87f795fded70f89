set_option autoImplicit false

namespace Depot

abbrev Bytes := List UInt8

namespace Bytes

/-- The last `width` base-256 digits of a number, the lowest first. -/
def ofNat : (width value : Nat) → Bytes
  | 0, _ => []
  | width + 1, value => UInt8.ofNat value :: ofNat width (value / 256)

/-- The number whose base-256 digits are given, the lowest first. -/
def toNat : Bytes → Nat
  | [] => 0
  | digit :: rest => digit.toNat + 256 * toNat rest

def limit : (width : Nat) → Nat
  | 0 => 1
  | width + 1 => 256 * limit width

def ofString (text : String) : Bytes :=
  text.toList.flatMap String.utf8EncodeChar

/-- The digit for a value below 16, in lower case. -/
def hexDigit (value : Nat) : Char :=
  if value < 10 then Char.ofNat (value + 48) else Char.ofNat (value + 87)

def hex (bytes : Bytes) : String :=
  String.ofList (bytes.flatMap fun byte => [hexDigit (byte.toNat / 16), hexDigit (byte.toNat % 16)])

def hexValue? (c : Char) : Option Nat :=
  if '0' ≤ c ∧ c ≤ '9' then some (c.toNat - 48)
  else if 'a' ≤ c ∧ c ≤ 'f' then some (c.toNat - 87)
  else if 'A' ≤ c ∧ c ≤ 'F' then some (c.toNat - 55)
  else none

def ofHex? : List Char → Option Bytes
  | [] => some []
  | high :: low :: rest => do
    some (UInt8.ofNat ((← hexValue? high) * 16 + (← hexValue? low)) :: (← ofHex? rest))
  | _ => none

/-- Byte strings are ordered by their first different byte, a proper beginning coming first. -/
def precedes (left right : Bytes) : Bool :=
  decide (left < right)

@[simp] theorem length_ofNat (width value : Nat) : (ofNat width value).length = width := by
  induction width generalizing value with
  | zero => rfl
  | succ width ih => simp [ofNat, ih]

theorem toNat_ofNat (width value : Nat) (fits : value < limit width) :
    toNat (ofNat width value) = value := by
  induction width generalizing value with
  | zero =>
    simp only [limit] at fits
    simp only [ofNat, toNat]
    omega
  | succ width ih =>
    have upper : value / 256 < limit width := Nat.div_lt_of_lt_mul fits
    have low : (UInt8.ofNat value).toNat = value % 256 := UInt8.toNat_ofNat'
    simp only [ofNat, toNat, ih _ upper, low]
    omega

theorem toNat_lt (bytes : Bytes) : toNat bytes < limit bytes.length := by
  induction bytes with
  | nil => simp [toNat, limit]
  | cons digit rest ih =>
    have := digit.toNat_lt
    simp only [toNat, List.length_cons, limit]
    omega

/-- A number has no second form of the same width. -/
theorem ofNat_toNat (bytes : Bytes) : ofNat bytes.length (toNat bytes) = bytes := by
  induction bytes with
  | nil => rfl
  | cons digit rest ih =>
    have bound := digit.toNat_lt
    have upper : (digit.toNat + 256 * toNat rest) / 256 = toNat rest := by omega
    have low : UInt8.ofNat (digit.toNat + 256 * toNat rest) = digit := by
      apply UInt8.toNat_inj.mp
      rw [UInt8.toNat_ofNat']
      omega
    simp only [List.length_cons, toNat, ofNat, upper, low, ih]

end Bytes

end Depot
