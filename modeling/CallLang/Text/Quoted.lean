import CallLang.Text.Utf8
import CallLang.Text.Printable

/-!
# Quoted texts

A text between double quotes in which every character that is not printable is shown by an escape, so that the result
is one line of visible characters, whatever the bytes were.
-/

namespace CallLang.Quoted

/-- A lower-case hexadecimal digit. -/
def hexDigit (n : Nat) : UInt8 :=
  if n < 10 then (0x30 + n).toUInt8 else (0x61 + (n - 10)).toUInt8

/-- The last `places` hexadecimal digits of a number. -/
def hex : (places : Nat) → Nat → Bytes
  | 0, _ => []
  | places + 1, n => hex places (n / 16) ++ [hexDigit (n % 16)]

/-- The characters that have an escape of one letter. -/
def letter? (c : Char) : Option Bytes :=
  match c.toNat with
  | 0x07 => some (ascii "a")
  | 0x08 => some (ascii "b")
  | 0x09 => some (ascii "t")
  | 0x0A => some (ascii "n")
  | 0x0B => some (ascii "v")
  | 0x0C => some (ascii "f")
  | 0x0D => some (ascii "r")
  | 0x22 => some (ascii "\"")
  | 0x5C => some (ascii "\\")
  | _ => none

/-- How one character is shown: by a letter escape, as it is, or by its code point in two, four or eight digits. -/
def ofChar (c : Char) : Bytes :=
  match letter? c with
  | some l => ascii "\\" ++ l
  | none =>
    if isPrintable c then Utf8.encode c
    else if c.toNat < 0x80 then ascii "\\x" ++ hex 2 c.toNat
    else if c.toNat < 0x10000 then ascii "\\u" ++ hex 4 c.toNat
    else ascii "\\U" ++ hex 8 c.toNat

/-- How one symbol is shown; a stray byte is shown by its value. -/
def ofSymbol : Symbol → Bytes
  | .char c => ofChar c
  | .stray b => ascii "\\x" ++ hex 2 b.toNat

/-- A text between double quotes, on one line. -/
def quote (text : Bytes) : Bytes :=
  ascii "\"" ++ (Utf8.symbols text).flatMap ofSymbol ++ ascii "\""

end CallLang.Quoted
