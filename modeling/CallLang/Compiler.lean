import CallLang.C.Emission
import CallLang.Program.Lowering
import CallLang.Token.Scanner
import CallLang.Toolchain
import CallLang.Tree.Parser

/-!
# The compiler

The way from a source to an executable: scanning, parsing, lowering, C text, C compiler. The first stage that fails ends
it. A stage is reported when it is over, so a stage that fails is not reported; the last one is reported in any case.

- `Compiler.toC` goes as far as the C text, and `Compiler.fileToC` does so from a path;
- `Compiler.compile` goes from a path to an executable.
-/

namespace CallLang

/-- Why there is no C text, or no executable. -/
inductive Failure where
  /-- The file cannot be opened. -/
  | unopened (path : Bytes) (problem : PathProblem)
  /-- The source cannot be read to its end. -/
  | unread (file message : Bytes)
  | parse (error : ParseError)
  | range (error : RangeError)
  | build (error : BuildError)
deriving DecidableEq, Repr

/-- What is said when a path cannot be opened. -/
def PathProblem.openMessage (path : Bytes) (problem : PathProblem) : Bytes :=
  ascii "open " ++ path ++ ascii ": " ++ problem.text

/-- What is said when what stands at a path cannot be read. -/
def PathProblem.readMessage (path : Bytes) (problem : PathProblem) : Bytes :=
  ascii "read " ++ path ++ ascii ": " ++ problem.text

/-- The message of a failure: the stage, then the message of the error. -/
def Failure.message : Failure → Bytes
  | .unopened path problem => ascii "unable to read file: " ++ problem.openMessage path
  | .unread file message => ascii "unable to read " ++ file ++ ascii ": " ++ message
  | .parse e => ascii "parse: " ++ e.message
  | .range e => ascii "generate: " ++ e.message
  | .build e => ascii "compile: " ++ e.message

/-- What happened on the way to a result. -/
structure Job (α : Type) where
  log : List Event
  result : Except Failure α

/-- A compiler: the toolchain it uses, and whether it reports its stages. -/
structure Compiler where
  toolchain : Toolchain := .standard
  traced : Bool := false

namespace Compiler

/-- The reports about stages that are over. -/
def report (c : Compiler) (stages : List Stage) : List Event :=
  if c.traced then stages.map .finished else []

/-- The C text of a source that arrives in deliveries. -/
def toC (c : Compiler) (file : Bytes) (coming : List Delivery) : Job Bytes :=
  let (tokens, scanner) := (Scanner.ofDeliveries file coming).run
  match scanner.failure with
  | some message => ⟨[], .error (.unread file message)⟩
  | none =>
    match CallLang.parse file tokens with
    | .error e => ⟨c.report [.lex], .error (.parse e)⟩
    | .ok tree =>
      match tree.lower.toC with
      | .error e => ⟨c.report [.lex, .parse, .lower], .error (.range e)⟩
      | .ok source => ⟨c.report [.lex, .parse, .lower, .generate], .ok source⟩

/-- The deliveries of what stands at a path. A directory can be opened and not read. -/
def deliveries (path : Bytes) : Entry → List Delivery
  | .file content => [⟨content, none⟩]
  | .directory => [⟨[], some (.failed (PathProblem.isDirectory.readMessage path))⟩]

/-- The C text of the file at a path. -/
def fileToC (host : Host) (c : Compiler) (path : Bytes) : Job Bytes :=
  match host.entry path with
  | .error problem => ⟨[], .error (.unopened path problem)⟩
  | .ok entry => c.toC path (deliveries path entry)

/-- The executable of the file at a path. -/
def compile (host : Host) (c : Compiler) (path : Bytes) : Job Bytes :=
  let text := c.fileToC host path
  match text.result with
  | .error e => ⟨text.log, .error e⟩
  | .ok source =>
    let (log, result) := c.toolchain.build host source
    ⟨text.log ++ log ++ c.report [.compile], result.mapError .build⟩

end Compiler

end CallLang
