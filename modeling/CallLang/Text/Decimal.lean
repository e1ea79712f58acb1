import CallLang.Text.Quoted

/-!
# Decimal integers

- `decimal` and `signed` write a number in decimal, without leading zeros;
- `Integer.read` reads a signed decimal integer of 64 bits: one optional sign, then digits only.

Reading goes from left to right and stops at the first trouble: a byte that is no digit makes the text malformed, and
digits that pass `2 ^ 64` put it out of range, whatever follows them.
-/

namespace CallLang

/-- The byte of a decimal digit. -/
def digitByte (n : Nat) : UInt8 :=
  (0x30 + n).toUInt8

/-- A decimal digit. -/
def isDigitByte (b : UInt8) : Bool :=
  0x30 ≤ b && b ≤ 0x39

/-- A natural number in decimal, without leading zeros. -/
def decimal (n : Nat) : Bytes :=
  if n < 10 then [digitByte n] else decimal (n / 10) ++ [digitByte (n % 10)]
termination_by n

/-- An integer in decimal, with a minus sign if it is negative. -/
def signed (n : Int) : Bytes :=
  if n < 0 then ascii "-" ++ decimal n.natAbs else decimal n.natAbs

namespace Integer

/-- Why a text is not an integer of 64 bits. -/
inductive ReadError where
  /-- The text is not an optional sign followed by digits. -/
  | malformed
  /-- The number does not fit; `nearest` is the bound on its side. -/
  | outOfRange (nearest : Int)
deriving DecidableEq, Repr

/-- The least integer of 64 bits. -/
def least : Int := -0x8000000000000000

/-- The greatest integer of 64 bits. -/
def greatest : Int := 0x7FFFFFFFFFFFFFFF

/-- What a run of digits is worth, read on from `n`. -/
inductive Magnitude where
  | value (n : Nat)
  /-- The digits passed `2 ^ 64`. -/
  | tooLarge
  /-- A byte that is no digit. -/
  | malformed
deriving DecidableEq, Repr

/-- Reads digits from left to right, with `n` the value of those before. -/
def magnitude (n : Nat) : Bytes → Magnitude
  | [] => .value n
  | b :: rest =>
    if isDigitByte b then
      let m := n * 10 + (b.toNat - 0x30)
      if m < 0x10000000000000000 then magnitude m rest else .tooLarge
    else .malformed

/-- Splits an optional sign off; `true` stands for minus. -/
def splitSign : Bytes → Bool × Bytes
  | 0x2B :: rest => (false, rest)
  | 0x2D :: rest => (true, rest)
  | text => (false, text)

/-- Reads a signed decimal integer of 64 bits. -/
def read (text : Bytes) : Except ReadError Int :=
  let (negative, digits) := splitSign text
  let bound : ReadError := .outOfRange (if negative then least else greatest)
  if digits = [] then .error .malformed
  else match magnitude 0 digits with
    | .malformed => .error .malformed
    | .tooLarge => .error bound
    | .value m =>
      let n : Int := if negative then -m else m
      if least ≤ n ∧ n ≤ greatest then .ok n else .error bound

/-- The integer that stands for the text when it cannot be read: zero, or the bound it passed. -/
def ReadError.fallback : ReadError → Int
  | .malformed => 0
  | .outOfRange nearest => nearest

/-- The message about a text that cannot be read. -/
def ReadError.message (text : Bytes) (e : ReadError) : Bytes :=
  ascii "strconv.ParseInt: parsing " ++ Quoted.quote text ++
    match e with
    | .malformed => ascii ": invalid syntax"
    | .outOfRange _ => ascii ": value out of range"

end Integer

end CallLang
