import CallLang.Text.Decimal

/-!
# Literals and types

The literal values that statements and calls carry, and the types that functions name. Both have kinds known by a number
only, since trees and programs may be given from outside.
-/

namespace CallLang

/-- The kinds of literal. -/
inductive LiteralKind where
  /-- No literal at all: what stands for an argument that is not one. -/
  | absent
  | number
  | string
  /-- A kind that is known by its number only. -/
  | unnamed (code : Int)
deriving DecidableEq, Repr

namespace LiteralKind

/-- The kind with a given number. -/
def ofCode : Int → LiteralKind
  | 0 => .absent
  | 1 => .number
  | 2 => .string
  | code => .unnamed code

/-- The number of a kind. -/
def code : LiteralKind → Int
  | .absent => 0
  | .number => 1
  | .string => 2
  | .unnamed code => code

theorem code_ofCode (n : Int) : (ofCode n).code = n := by
  unfold ofCode
  split <;> rfl

end LiteralKind

/-- A literal: its kind and its text, which for a string is the string itself. -/
structure Literal where
  kind : LiteralKind := .absent
  text : Bytes := []
deriving DecidableEq, Repr

namespace Literal

/-- A literal as listings show it. -/
def render (v : Literal) : Bytes :=
  match v.kind with
  | .string => Quoted.quote v.text
  | .number => v.text
  | _ => ascii "<none>"

/-- The integer that the text of a literal stands for. -/
def toInt (v : Literal) : Except Integer.ReadError Int :=
  Integer.read v.text

end Literal

/-- The type a function returns. -/
inductive ReturnType where
  | void
  /-- A type that is known by its number only. -/
  | unnamed (code : Int)
deriving DecidableEq, Repr

namespace ReturnType

/-- The type with a given number. -/
def ofCode : Int → ReturnType
  | 0 => .void
  | code => .unnamed code

/-- The number of a type. -/
def code : ReturnType → Int
  | .void => 0
  | .unnamed code => code

/-- The name of a type. -/
def name : ReturnType → Bytes
  | .void => ascii "void"
  | .unnamed code => ascii "Type(" ++ signed code ++ ascii ")"

/-- The type with a given name in a source. -/
def ofName? (word : Bytes) : Option ReturnType :=
  if word = ascii "void" then some .void else none

theorem code_ofCode (n : Int) : (ofCode n).code = n := by
  unfold ofCode
  split <;> rfl

end ReturnType

end CallLang
