import CallLang.Source.Location

/-!
# Tokens

A token is a kind, a value and the place and length of the source text it was read from. Tokens may also be given from
outside, with any value, a missing place or a kind that has only a number.

- `Kind.name` names a kind, `Token.render` shows a token in a listing;
- `Token.describe` is how messages about unexpected tokens speak of one.
-/

namespace CallLang

/-- The kinds of token. -/
inductive Kind where
  | unknown
  | number
  | string
  | identifier
  | importWord
  | fromWord
  | fnWord
  | typeName
  | semicolon
  | openParen
  | closeParen
  | openBrace
  | closeBrace
  /-- A kind that is known by its number only. -/
  | unnamed (code : Nat)
deriving DecidableEq, Repr

namespace Kind

/-- The kind with a given number; the named kinds are numbered from 1. -/
def ofCode : Nat → Kind
  | 1 => .unknown
  | 2 => .number
  | 3 => .string
  | 4 => .identifier
  | 5 => .importWord
  | 6 => .fromWord
  | 7 => .fnWord
  | 8 => .typeName
  | 9 => .semicolon
  | 10 => .openParen
  | 11 => .closeParen
  | 12 => .openBrace
  | 13 => .closeBrace
  | code => .unnamed code

/-- The number of a kind. -/
def code : Kind → Nat
  | .unknown => 1
  | .number => 2
  | .string => 3
  | .identifier => 4
  | .importWord => 5
  | .fromWord => 6
  | .fnWord => 7
  | .typeName => 8
  | .semicolon => 9
  | .openParen => 10
  | .closeParen => 11
  | .openBrace => 12
  | .closeBrace => 13
  | .unnamed code => code

theorem code_ofCode (n : Nat) : (ofCode n).code = n := by
  unfold ofCode
  split <;> rfl

/-- The name of a kind. -/
def name : Kind → Bytes
  | .unknown => ascii "Unknown"
  | .number => ascii "Number"
  | .string => ascii "String"
  | .identifier => ascii "Identifier"
  | .importWord => ascii "Import"
  | .fromWord => ascii "From"
  | .fnWord => ascii "Fn"
  | .typeName => ascii "TypeName"
  | .semicolon => ascii "Semicolon"
  | .openParen => ascii "OpenParentheses"
  | .closeParen => ascii "CloseParentheses"
  | .openBrace => ascii "OpenCurly"
  | .closeBrace => ascii "CloseCurly"
  | .unnamed code => ascii "TokenType(" ++ decimal code ++ ascii ")"

end Kind

/-- A token: its kind, its value, its place, and the number of source bytes it covers. -/
structure Token where
  kind : Kind
  value : Bytes
  place : Option Location := none
  length : Int := 0
deriving DecidableEq, Repr

namespace Token

/-- Numbers and strings are literals. -/
def isLiteral (t : Token) : Bool :=
  t.kind == .number || t.kind == .string

/-- A token as a listing shows it. -/
def render (t : Token) : Bytes :=
  match t.kind with
  | .identifier | .number | .typeName | .unknown => t.kind.name ++ ascii "(" ++ t.value ++ ascii ")"
  | .string => t.kind.name ++ ascii "(" ++ Quoted.quote t.value ++ ascii ")"
  | kind => kind.name

/-- A token as messages speak of it. -/
def describe (t : Token) : Bytes :=
  match t.kind with
  | .identifier => ascii "identifier '" ++ t.value ++ ascii "'"
  | .number => ascii "number " ++ t.value
  | .string => ascii "string " ++ Quoted.quote t.value
  | .typeName => ascii "type '" ++ t.value ++ ascii "'"
  | .importWord => ascii "keyword 'import'"
  | .fromWord => ascii "keyword 'from'"
  | .fnWord => ascii "keyword 'fn'"
  | .unknown => ascii "unknown symbol '" ++ t.value ++ ascii "'"
  | .semicolon => ascii "';'"
  | .openParen => ascii "'('"
  | .closeParen => ascii "')'"
  | .openBrace => ascii "'" ++ [Bytes.openBrace] ++ ascii "'"
  | .closeBrace => ascii "'" ++ [Bytes.closeBrace] ++ ascii "'"
  | .unnamed code => (Kind.unnamed code).name

end Token

end CallLang
