import CallLang.Program
import CallLang.Tree

/-!
# Lowering

A tree becomes a program, one instruction for each statement, at every depth and in order. Lowering analyses nothing and
never fails: a missing node is left out of a list of statements, and an argument that is not a literal becomes the
literal that is none. A list that is there stays there, even if nothing is left in it.
-/

namespace CallLang

namespace Node

/-- The literal that a node gives as an argument of a call. -/
def operand : Node → Literal
  | .literal value _ => value
  | _ => {}

mutual

/-- The instruction of a statement, if the statement is there. -/
def lower? : Node → Option Instr
  | .missing => none
  | .literal value place => some (.literal value place)
  | .importing module name place => some (.importing module name place)
  | .function name parameters body type place =>
    some (.function name (lowerBlock parameters) (lowerBlock body) type place)
  | .call name arguments place => some (.call name (arguments.map (·.map operand)) place)

/-- The instructions of a list of statements that may be missing. -/
def lowerBlock : Option (List Node) → Option (List Instr)
  | none => none
  | some nodes => some (lowerAll nodes)

/-- The instructions of a list of statements. -/
def lowerAll : List Node → List Instr
  | [] => []
  | n :: rest => (lower? n).toList ++ lowerAll rest

end

end Node

/-- The program of a tree. -/
def Tree.lower (t : Tree) : Program where
  file := t.file
  instructions := Node.lowerBlock t.statements

end CallLang
