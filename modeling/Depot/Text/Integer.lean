set_option autoImplicit false

namespace Depot.Text

def digit? (c : Char) : Option Nat :=
  if '0' ≤ c ∧ c ≤ '9' then some (c.toNat - 48) else none

def digitsFrom? (value : Nat) : List Char → Option Nat
  | [] => some value
  | c :: rest => do digitsFrom? (value * 10 + (← digit? c)) rest

def digits? : List Char → Option Nat
  | [] => none
  | c :: rest => digitsFrom? 0 (c :: rest)

def nat? : List Char → Option Nat
  | '+' :: rest => digits? rest
  | text => digits? text

/-- A number with or without a sign in front. -/
def int? : List Char → Option Int
  | '-' :: rest => (digits? rest).map fun value => -(value : Int)
  | text => (nat? text).map Int.ofNat

def isInt32 (value : Int) : Bool :=
  decide (-0x80000000 ≤ value) && decide (value < 0x80000000)

/-- A number of 32 bits with or without a sign in front. -/
def int32? (text : List Char) : Option Int := do
  let value ← int? text
  if isInt32 value then some value else none

end Depot.Text
