/-!
# Byte strings

Source texts, names and everything the program writes are byte strings: a source need not be well-formed UTF-8, and
its bytes reach messages and listings unchanged.

- `ascii`: the bytes of a fixed word of the program;
- `repeated`: a byte string written several times, as indentation needs it;
- `joined`: byte strings with a separator between neighbours;
- `braced`: a byte string between braces.
-/

namespace CallLang

/-- A text as its bytes. -/
abbrev Bytes := List UInt8

/-- The bytes of a text written in ASCII, one for each character. -/
def ascii (s : String) : Bytes :=
  s.toList.map fun c => c.toNat.toUInt8

namespace Bytes

/-- A byte string written `n` times over. -/
def repeated : Nat → Bytes → Bytes
  | 0, _ => []
  | n + 1, b => b ++ repeated n b

/-- Byte strings in order, with `sep` between neighbours. -/
def joined (sep : Bytes) : List Bytes → Bytes
  | [] => []
  | [b] => b
  | b :: c :: rest => b ++ sep ++ joined sep (c :: rest)

/-- The brace in front of a block. -/
def openBrace : UInt8 := '{'.toUInt8

/-- The brace behind a block. -/
def closeBrace : UInt8 := '}'.toUInt8

/-- A byte string between braces. -/
def braced (inner : Bytes) : Bytes :=
  openBrace :: (inner ++ [closeBrace])

/-- Indentation: two spaces for each level. -/
def indent (depth : Nat) : Bytes :=
  repeated depth (ascii "  ")

end Bytes

end CallLang
