import CallLang.Proofs.C.Structure

/-!
# Statements of C text

Of the parts of a C text some are statements: literals and calls. The others are the heads and the ends of functions,
with the `return` that a `main` may be given. The statements that are written are those of the instructions that are met,
in order (`Program.statements_eq`), so the literals in them are those of the program (`Program.values_statements`). The
text of a literal stands in its statement between fixed words, which are `C.statement`.
-/

namespace CallLang

/-! ## Statements and their texts -/

namespace C

/-- The C statement with the text of a literal in it: alone, or as what a call has between its parentheses. -/
def statement (call : Option Bytes) (value : Bytes) : Bytes :=
  match call with
  | none => value ++ ascii ";"
  | some name =>
    if name = ascii "return" then ascii "return " ++ value ++ ascii ";" else name ++ ascii "(" ++ value ++ ascii ");"

namespace Part

/-- Whether a part is a statement of the program. -/
def isStatement : Part → Bool
  | .literal _ => true
  | .call _ _ => true
  | _ => false

/-- The literals that are written in a part. -/
def values : Part → List Literal
  | .literal value => [value]
  | .call _ operands => operands
  | _ => []

/-- Whether a number is written in a part. -/
def hasNumber (part : Part) : Bool :=
  part.values.any (·.kind == .number)

theorem text_literal (value : Literal) : text (.literal value) = C.statement none value.toC :=
  rfl

theorem text_call (name : Bytes) (value : Literal) : text (.call name [value]) = C.statement (some name) value.toC :=
  rfl

end Part

end C

/-! ## The statements that are written -/

namespace Instr

/-- The part that is written for an instruction, if it is a statement. -/
def statement? : Instr → Option C.Part
  | .literal value _ => some (.literal value)
  | .call name operands _ => some (.call name (operands.getD []))
  | _ => none

theorem values_statement (i : Instr) : i.statement?.toList.flatMap C.Part.values = i.values := by
  cases i with
  | call name operands _ => exact List.append_nil _
  | _ => rfl

theorem filter_endParts (name : Bytes) (body : Option (List Instr)) :
    (endParts name body).filter C.Part.isStatement = [] := by
  rw [endParts, List.filter_append]
  split <;> rfl

mutual

theorem filter_parts (i : Instr) : i.parts.filter C.Part.isStatement = i.preorder.filterMap statement? :=
  match i with
  | .missing => rfl
  | .literal _ _ => rfl
  | .importing _ _ _ => rfl
  | .call _ _ _ => rfl
  | .function name _ body _ _ => by
    rw [parts, List.filter_cons_of_neg Bool.false_ne_true, List.filter_append, filter_endParts, List.append_nil,
      filter_blockParts body]
    rfl

theorem filter_blockParts (block : Option (List Instr)) :
    (blockParts block).filter C.Part.isStatement = (blockPreorder block).filterMap statement? :=
  match block with
  | none => rfl
  | some instrs => filter_allParts instrs

theorem filter_allParts (instrs : List Instr) :
    (allParts instrs).filter C.Part.isStatement = (allPreorder instrs).filterMap statement? :=
  match instrs with
  | [] => rfl
  | i :: rest => by
    rw [allParts, List.filter_append, filter_parts i, filter_allParts rest, allPreorder, List.filterMap_append]

end

end Instr

namespace Program

/-- The parts that are written for a program. -/
def parts (p : Program) : List C.Part :=
  p.instrs.flatMap Instr.parts

/-- The statements among the parts. -/
def statements (p : Program) : List C.Part :=
  p.parts.filter C.Part.isStatement

/-- The C text of a program is that of its parts, behind the line of the include. -/
theorem toC_eq_parts {p : Program} {text : Bytes} (h : p.toC = .ok text) :
    text = p.header ++ p.parts.flatMap C.Part.text := by
  rw [(toC_eq_ok_iff.1 h).2, bodyToC, Instr.allToC_eq_parts, List.append_nil, Instr.allParts_eq_flatMap, parts]

/-- **The statements that are written are those of the instructions that are met, in order.** -/
theorem statements_eq (p : Program) : p.statements = p.preorder.filterMap Instr.statement? := by
  rw [statements, parts, ← Instr.allParts_eq_flatMap, Instr.filter_allParts, preorder_eq]

/-- The literals that are written are those of the program. -/
theorem values_statements (p : Program) : p.statements.flatMap C.Part.values = p.preorder.flatMap Instr.values := by
  rw [statements_eq]
  induction p.preorder with
  | nil => rfl
  | cons i rest ih =>
    rw [List.flatMap_cons, ← ih, ← i.values_statement, List.filterMap_cons]
    cases i.statement? <;> simp

end Program

end CallLang
