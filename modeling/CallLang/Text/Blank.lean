import CallLang.Text.Utf8

/-!
# Blank characters

White space is the Unicode property `White_Space`. Blanks separate tokens, and `trim` takes them off both ends of a
text; a stray byte is never blank.
-/

namespace CallLang

/-- White space: `U+0009` to `U+000D`, the space, and the spaces and separators outside ASCII. -/
def isBlank (c : Char) : Bool :=
  let n := c.toNat
  (0x09 ≤ n && n ≤ 0x0D) || n == 0x20 || n == 0x85 || n == 0xA0 || n == 0x1680 || (0x2000 ≤ n && n ≤ 0x200A) ||
    n == 0x2028 || n == 0x2029 || n == 0x202F || n == 0x205F || n == 0x3000

namespace Symbol

/-- A symbol that is a blank character. -/
def blank : Symbol → Bool
  | .char c => isBlank c
  | .stray _ => false

end Symbol

namespace Bytes

/-- A text without the blanks at its ends. -/
def trim (b : Bytes) : Bytes :=
  let solid := (Utf8.symbols b).dropWhile Symbol.blank
  (solid.reverse.dropWhile Symbol.blank).reverse.flatMap Symbol.bytes

/-- A text filled up with spaces on the right to `width` symbols; a longer text stays as it is. -/
def padded (width : Nat) (b : Bytes) : Bytes :=
  b ++ repeated (width - (Utf8.symbols b).length) (ascii " ")

end Bytes

end CallLang
