import CallLang.C.StringLiteral
import CallLang.Program

/-!
# C text of a program

Every instruction has its C text, and the text of a program is that of its instructions, one after the other. A program
that calls `exit` anywhere is headed by the include of `stdlib.h`. A function `main` returns an `int`, and it ends with
`return 0;` unless it calls `return` or `exit` somewhere. Imports have no C text.

The only thing that can be wrong is an exit code, which has to lie between 0 and 255: `RangeError`. The first one counts.

- `Program.toC` is the C text of a program, or the error, which is looked for before any text is put together;
- `Instr.toC_append` says that the text of an instruction depends on the instruction alone.

A generator writes the same text into a buffer, instruction by instruction, and meets a wrong call on the way. The buffer
is kept from one run to the next with what was written, also before a wrong call, and a run clears it before it writes.
Between two runs the program may grow.

- `Instr.write` writes one instruction, and `Generator.run` is one run;
- `Generator.results` are the results of the runs in a history of a generator.
-/

namespace CallLang

/-- An exit code that is no process status. -/
structure RangeError where
  place : Option Location
  function : Bytes
  value : Bytes
deriving DecidableEq, Repr

/-- The message of a range error. -/
def RangeError.message (e : RangeError) : Bytes :=
  Location.tagged e.place (e.function ++ ascii " code " ++ e.value ++ ascii " out of range [0, 255]")

/-- The C text of a literal; what is none has no text. -/
def Literal.toC (v : Literal) : Bytes :=
  match v.kind with
  | .number => v.text
  | .string => C.stringLiteral v.text
  | _ => []

namespace Instr

mutual

/-- Whether an instruction is a call with a name that satisfies `p`, or has one in its body at any depth. -/
def calls (p : Bytes → Bool) : Instr → Bool
  | .call name _ _ => p name
  | .function _ _ body _ _ => callsBlock p body
  | _ => false

/-- Whether such a call is in a list of instructions that may be missing. -/
def callsBlock (p : Bytes → Bool) : Option (List Instr) → Bool
  | none => false
  | some instrs => callsAny p instrs

/-- Whether such a call is in a list of instructions. -/
def callsAny (p : Bytes → Bool) : List Instr → Bool
  | [] => false
  | i :: rest => calls p i || callsAny p rest

end

/-- The name of the call that ends the process. -/
def isExit (name : Bytes) : Bool :=
  name == ascii "exit"

/-- The names of the calls that leave a function. -/
def isLeaving (name : Bytes) : Bool :=
  name == ascii "return" || name == ascii "exit"

/-- A literal that may be an exit code: any that is not a number, and the numbers from 0 to 255. -/
def isExitCode (v : Literal) : Bool :=
  match v.kind with
  | .number =>
    match v.toInt with
    | .ok n => 0 ≤ n && n ≤ 255
    | .error _ => false
  | _ => true

/-- The C text of a call. -/
def callToC (name : Bytes) (operands : List Literal) : Bytes :=
  if name = ascii "return" then ascii "return " ++ (operands.head?.map Literal.toC).getD [] ++ ascii ";"
  else name ++ ascii "(" ++ Bytes.joined (ascii ", ") (operands.map Literal.toC) ++ ascii ");"

/-- What is wrong with a call: it ends the process with a code that is no process status. -/
def callFault? (name : Bytes) (operands : List Literal) (place : Option Location) : Option RangeError :=
  match operands with
  | code :: _ => if isExit name && !isExitCode code then some ⟨place, name, code.text⟩ else none
  | [] => none

mutual

/-- The first wrong call of an instruction. -/
def fault? : Instr → Option RangeError
  | .call name operands place => callFault? name (operands.getD []) place
  | .function _ _ body _ _ => blockFault? body
  | _ => none

/-- The first wrong call in a list of instructions that may be missing. -/
def blockFault? : Option (List Instr) → Option RangeError
  | none => none
  | some instrs => firstFault? instrs

/-- The first wrong call in a list of instructions. -/
def firstFault? : List Instr → Option RangeError
  | [] => none
  | i :: rest =>
    match fault? i with
    | some e => some e
    | none => firstFault? rest

end

/-- The C parameter list of a function. Parameters have no types yet, so only their number shows. -/
def parametersToC (parameters : Option (List Instr)) : Bytes :=
  match parameters.getD [] with
  | [] => ascii "void"
  | given => Bytes.joined (ascii ", ") (given.map fun _ => ascii "void")

/-- Whether a function is the entry of the program. -/
def isMain (name : Bytes) : Bool :=
  name == ascii "main"

/-- The head of a C function, up to its opening brace. -/
def headToC (name : Bytes) (parameters : Option (List Instr)) : Bytes :=
  (if isMain name then ascii "int" else ascii "void") ++ ascii " " ++ name ++ ascii "(" ++
    parametersToC parameters ++ ascii ") " ++ [Bytes.openBrace]

/-- The end of a C function, from behind its body. -/
def endToC (name : Bytes) (body : Option (List Instr)) : Bytes :=
  (if isMain name && !callsBlock isLeaving body then ascii "return 0;" else []) ++ [Bytes.closeBrace]

mutual

/-- The C text of an instruction, in front of the text `tail`. -/
def toC : Instr → (tail : Bytes) → Bytes
  | .missing, tail => tail
  | .literal value _, tail => value.toC ++ (ascii ";" ++ tail)
  | .importing _ _ _, tail => tail
  | .call name operands _, tail => callToC name (operands.getD []) ++ tail
  | .function name parameters body _ _, tail =>
    headToC name parameters ++ blockToC body (endToC name body ++ tail)

/-- The C text of a list of instructions that may be missing, in front of `tail`. -/
def blockToC : Option (List Instr) → (tail : Bytes) → Bytes
  | none, tail => tail
  | some instrs, tail => allToC instrs tail

/-- The C text of a list of instructions, in front of `tail`. -/
def allToC : List Instr → (tail : Bytes) → Bytes
  | [], tail => tail
  | i :: rest, tail => toC i (allToC rest tail)

end

mutual

/-- The C text of an instruction does not depend on what follows it. -/
theorem toC_append (i : Instr) (s t : Bytes) : i.toC (s ++ t) = i.toC s ++ t :=
  match i with
  | .missing => rfl
  | .importing _ _ _ => rfl
  | .literal _ _ => by simp [toC]
  | .call _ _ _ => by simp [toC]
  | .function name _ body _ _ => by
    have h := blockToC_append body (endToC name body ++ s) t
    simp only [List.append_assoc] at h
    simp [toC, h]

/-- The C text of a block does not depend on what follows it. -/
theorem blockToC_append (block : Option (List Instr)) (s t : Bytes) :
    blockToC block (s ++ t) = blockToC block s ++ t :=
  match block with
  | none => rfl
  | some instrs => by simpa [blockToC] using allToC_append instrs s t

/-- The C text of a list does not depend on what follows it. -/
theorem allToC_append (instrs : List Instr) (s t : Bytes) : allToC instrs (s ++ t) = allToC instrs s ++ t :=
  match instrs with
  | [] => rfl
  | i :: rest => by
    have h := allToC_append rest s t
    simp only [allToC, h]
    exact toC_append i (allToC rest s) t

end

end Instr

namespace Program

/-- The line that makes `exit` known. -/
def includeLine : Bytes :=
  ascii "#include <stdlib.h>\n"

/-- The line at the head of the C text of a program, if it needs one. -/
def header (p : Program) : Bytes :=
  if Instr.callsBlock Instr.isExit p.instructions then includeLine else []

/-- The C text of a program, or what is wrong with the first wrong call in it. -/
def toC (p : Program) : Except RangeError Bytes :=
  match Instr.blockFault? p.instructions with
  | some e => .error e
  | none => .ok (p.header ++ Instr.blockToC p.instructions [])

/-- A program with more instructions at its end. -/
def append (p : Program) (instrs : List Instr) : Program :=
  { p with instructions := some (p.instructions.getD [] ++ instrs) }

end Program

/-! ## Generators -/

/-- Writing into a buffer, until something is wrong. -/
abbrev Writing := EStateM RangeError Bytes

namespace Writing

/-- Writes a text behind what is in the buffer. -/
def write (text : Bytes) : Writing Unit :=
  modify (· ++ text)

/-- Stops if something is wrong. -/
def check : Option RangeError → Writing Unit
  | none => pure ()
  | some e => throw e

end Writing

namespace Instr

mutual

/-- Writes an instruction. -/
def write : Instr → Writing Unit
  | .missing => pure ()
  | .literal value _ => do
    Writing.write value.toC
    Writing.write (ascii ";")
  | .importing _ _ _ => pure ()
  | .call name operands place => do
    Writing.check (callFault? name (operands.getD []) place)
    Writing.write (callToC name (operands.getD []))
  | .function name parameters body _ _ => do
    Writing.write (headToC name parameters)
    writeBlock body
    Writing.write (endToC name body)

/-- Writes a list of instructions that may be missing. -/
def writeBlock : Option (List Instr) → Writing Unit
  | none => pure ()
  | some instrs => writeAll instrs

/-- Writes a list of instructions. -/
def writeAll : List Instr → Writing Unit
  | [] => pure ()
  | i :: rest => do
    write i
    writeAll rest

end

end Instr

/-- Writes a program into a buffer that is cleared before. -/
def Program.write (p : Program) : Writing Unit := do
  set ([] : Bytes)
  Writing.write p.header
  Instr.writeBlock p.instructions

/-- A program, and a buffer for its C text. -/
structure Generator where
  program : Program
  buffer : Bytes := []

namespace Generator

/-- One run: the text of the program as it stands, or what is wrong with it; and the generator with what was written. -/
def run (g : Generator) : Except RangeError Bytes × Generator :=
  match g.program.write g.buffer with
  | .ok _ text => (.ok text, { g with buffer := text })
  | .error e text => (.error e, { g with buffer := text })

/-- What can happen to a generator: its program grows, or it is run. -/
inductive Step where
  | append (instrs : List Instr)
  | run

/-- The results of the runs in a history. -/
def results (g : Generator) : List Step → List (Except RangeError Bytes)
  | [] => []
  | .append instrs :: rest => results { g with program := g.program.append instrs } rest
  | .run :: rest => g.run.1 :: results g.run.2 rest

end Generator

end CallLang
