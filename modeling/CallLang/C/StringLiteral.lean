import CallLang.Text.Bytes

/-!
# C string literals

A byte string as a string literal of C. Quotes, backslashes and control bytes are written as escapes; an octal escape
always has three digits, so that a digit after it is not read as part of it.
-/

namespace CallLang.C

/-- A byte as three octal digits. -/
def octal (b : UInt8) : Bytes :=
  [0x30 + b / 64, 0x30 + b / 8 % 8, 0x30 + b % 8]

/-- One byte inside a string literal. -/
def stringByte (b : UInt8) : Bytes :=
  if b = 0x22 then ascii "\\\""
  else if b = 0x5C then ascii "\\\\"
  else if b = 0x0A then ascii "\\n"
  else if b = 0x09 then ascii "\\t"
  else if b = 0x0D then ascii "\\r"
  else if b < 0x20 ∨ b = 0x7F then ascii "\\" ++ octal b
  else [b]

/-- A byte string as a string literal. -/
def stringLiteral (bytes : Bytes) : Bytes :=
  ascii "\"" ++ bytes.flatMap stringByte ++ ascii "\""

end CallLang.C
