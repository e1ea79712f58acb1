import CallLang.Listing
import CallLang.Literal
import CallLang.Source.Location

/-!
# Syntax trees

A tree is the list of statements of a source. A list of nodes may be missing, which is not the same as being empty: the
parser leaves a list without elements out, and lowering keeps the difference.

`Tree.render` lists a tree, with one line for each statement and each argument of a call.
-/

namespace CallLang

/-- A statement, or an argument of a call. -/
inductive Node where
  /-- A node that is not there. -/
  | missing
  | literal (value : Literal) (place : Option Location)
  | importing (module name : Bytes) (place : Option Location)
  | function (name : Bytes) (parameters body : Option (List Node)) (type : ReturnType) (place : Option Location)
  | call (name : Bytes) (arguments : Option (List Node)) (place : Option Location)
deriving Repr, BEq, Inhabited

/-- A list of nodes that may be missing. -/
abbrev Node.Block := Option (List Node)

/-- The statements of a source. -/
structure Tree where
  file : Bytes
  statements : Node.Block := none
deriving Repr, BEq, Inhabited

namespace Node

/-- What a listing shows of a node itself. -/
def label : Node → Bytes
  | .missing => ascii "<nil>"
  | .literal value _ => ascii "Literal " ++ value.render
  | .importing module name _ => ascii "Import " ++ name ++ ascii " from " ++ module
  | .function name _ _ type _ => ascii "FuncDecl " ++ name ++ ascii "() " ++ type.name
  | .call name _ _ => ascii "FuncCall " ++ name

mutual

/-- The lines of a node. The parameters of a function are not listed. -/
def lines (depth : Nat) : Node → List Line
  | .function name parameters body type place =>
    ⟨depth, label (.function name parameters body type place)⟩ :: blockLines (depth + 1) body
  | .call name arguments place => ⟨depth, label (.call name arguments place)⟩ :: blockLines (depth + 1) arguments
  | n => [⟨depth, label n⟩]

/-- The lines of a list of nodes that may be missing. -/
def blockLines (depth : Nat) : Option (List Node) → List Line
  | none => []
  | some nodes => allLines depth nodes

/-- The lines of a list of nodes. -/
def allLines (depth : Nat) : List Node → List Line
  | [] => []
  | n :: rest => lines depth n ++ allLines depth rest

end

end Node

/-- The listing of a tree. -/
def Tree.render (t : Tree) : Bytes :=
  ascii "AST " ++ t.file ++ ascii "\n" ++ Line.renderAll (Node.blockLines 1 t.statements)

end CallLang
