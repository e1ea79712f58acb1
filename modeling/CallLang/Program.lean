import CallLang.Listing
import CallLang.Literal
import CallLang.Source.Location

/-!
# Programs

A program is a list of instructions, one for each statement; the body of a function is a list of instructions again.
As in trees, a list may be missing.

`Program.render` lists a program, with one line for each instruction.
-/

namespace CallLang

/-- The sorts of instruction. -/
inductive Opcode where
  | literal
  | importing
  | function
  | call
  /-- A sort that is known by its number only. -/
  | unnamed (code : Int)
deriving DecidableEq, Repr

namespace Opcode

/-- The sort with a given number. -/
def ofCode : Int → Opcode
  | 0 => .literal
  | 1 => .importing
  | 2 => .function
  | 3 => .call
  | code => .unnamed code

/-- The name of a sort. -/
def name : Opcode → Bytes
  | .literal => ascii "literal"
  | .importing => ascii "import"
  | .function => ascii "func"
  | .call => ascii "call"
  | .unnamed code => ascii "op(" ++ signed code ++ ascii ")"

end Opcode

/-- One lowered statement. -/
inductive Instr where
  /-- An instruction that is not there. -/
  | missing
  | literal (value : Literal) (place : Option Location)
  | importing (module name : Bytes) (place : Option Location)
  | function (name : Bytes) (parameters body : Option (List Instr)) (type : ReturnType) (place : Option Location)
  | call (name : Bytes) (operands : Option (List Literal)) (place : Option Location)
deriving Repr, BEq, Inhabited

/-- A list of instructions that may be missing. -/
abbrev Instr.Block := Option (List Instr)

/-- The instructions of a source. -/
structure Program where
  file : Bytes
  instructions : Instr.Block := none
deriving Repr, BEq, Inhabited

namespace Instr

/-- One line of a listing: the sort of the instruction, then its text. -/
def line (depth : Nat) (op : Opcode) (text : Bytes) : Line :=
  ⟨depth, op.name ++ ascii " " ++ text⟩

mutual

/-- The lines of an instruction. One that is not there has none, and parameters are not listed. -/
def lines (depth : Nat) : Instr → List Line
  | .missing => []
  | .literal value _ => [line depth .literal value.render]
  | .importing module name _ => [line depth .importing (name ++ ascii " from " ++ module)]
  | .function name _ body type _ =>
    line depth .function (name ++ ascii " " ++ type.name) :: blockLines (depth + 1) body
  | .call name operands _ =>
    [line depth .call
      (name ++ ascii "(" ++ Bytes.joined (ascii ", ") ((operands.getD []).map Literal.render) ++ ascii ")")]

/-- The lines of a list of instructions that may be missing. -/
def blockLines (depth : Nat) : Option (List Instr) → List Line
  | none => []
  | some instrs => allLines depth instrs

/-- The lines of a list of instructions. -/
def allLines (depth : Nat) : List Instr → List Line
  | [] => []
  | i :: rest => lines depth i ++ allLines depth rest

end

end Instr

/-- The listing of a program. -/
def Program.render (p : Program) : Bytes :=
  ascii "program " ++ p.file ++ ascii "\n" ++ Line.renderAll (Instr.blockLines 1 p.instructions)

end CallLang
