import CallLang.CommandLine.Options
import CallLang.Compiler

/-!
# The command line

`CommandLine.run` is the whole command as a function of its arguments and its host: what happens, and the exit status.
Status 2 stands for options that cannot be read, 1 for any other failure.
-/

namespace CallLang.CommandLine

/-- What a run of the command does and how it ends. -/
structure Report where
  status : UInt8
  log : List Event := []
deriving DecidableEq, Repr

/-- The version of the command. -/
def version : Bytes := ascii "0.1.0"

/-- How to use the command. -/
def usage : Bytes :=
  ascii "chisel " ++ version ++ ascii "\n\nUsage: chisel [options] <file>\n\nOptions:\n" ++
    ascii "  -cc string\n    \tC compiler (default \"" ++ Toolchain.defaultCommand ++ ascii "\")\n" ++
    ascii "  -emit-ast\n    \tOutput AST\n" ++
    ascii "  -emit-c\n    \tOutput generated C instead of compiling it\n" ++
    ascii "  -emit-ic\n    \tOutput intermediate code\n" ++
    ascii "  -emit-tokens\n    \tOutput token stream\n" ++
    ascii "  -o string\n    \tOutput executable (default \"" ++ Toolchain.defaultOutput ++ ascii "\")\n" ++
    ascii "  -trace\n    \tOutput timing trace\n" ++
    ascii "  -version\n    \tPrint version\n"

/-- A run that writes a text and succeeds. -/
def succeed (text : Bytes) : Report :=
  ⟨0, [.output text]⟩

/-- A run that writes a message and fails. -/
def fail (message : Bytes) : Report :=
  ⟨1, [.diagnostics message]⟩

/-- The content of the file at a path, or the message about it. -/
def readSource (host : Host) (path : Bytes) : Except Bytes Bytes :=
  match host.entry path with
  | .ok (.file content) => .ok content
  | .ok .directory => .error (PathProblem.isDirectory.readMessage path)
  | .error problem => .error (problem.openMessage path)

/-- One line of the token listing: the place, filled up to 20 symbols, then the token. -/
def tokenLine (t : Token) : Bytes :=
  (Location.renderOr t.place).padded 20 ++ ascii " " ++ t.render ++ ascii "\n"

/-- The run that fails because a source cannot be read. -/
def failUnread (message : Bytes) : Report :=
  fail (ascii "Error: Unable to read file or directory: " ++ message ++ ascii "\n")

/-- Lists the tokens of a file. -/
def listTokens (host : Host) (path : Bytes) : Report :=
  match readSource host path with
  | .error message => failUnread message
  | .ok content => succeed ((tokenize path content).flatMap tokenLine)

/-- Shows the tree of a file by means of `render`. -/
def listTree (host : Host) (path : Bytes) (render : Tree → Bytes) : Report :=
  match readSource host path with
  | .error message => failUnread message
  | .ok content =>
    match parse path (tokenize path content) with
    | .error e => fail (ascii "Parse error: " ++ e.message ++ ascii "\n")
    | .ok tree => succeed (render tree)

/-- The compiler that the options ask for. -/
def compiler (o : Options) : Compiler where
  toolchain := { Toolchain.standard with command := o.command, output := o.output, streaming := true }
  traced := o.trace

/-- The event of a stage that is over, as a line on standard error. -/
def shown (host : Host) : Event → Event
  | .finished stage => .diagnostics (stage.name.padded 10 ++ ascii " " ++ host.elapsed stage ++ ascii "\n")
  | event => event

/-- A job as a run: its result is written on a line of its own. -/
def ofJob (host : Host) (job : Job Bytes) : Report :=
  match job.result with
  | .ok text => ⟨0, job.log.map (shown host) ++ [.output (text ++ ascii "\n")]⟩
  | .error e => ⟨1, job.log.map (shown host) ++ [.diagnostics (ascii "error: " ++ e.message ++ ascii "\n")]⟩

/-- What the command does with one file. -/
def runFile (host : Host) (o : Options) (path : Bytes) : Report :=
  if o.emitTokens then listTokens host path
  else if o.emitTree then listTree host path Tree.render
  else if o.emitProgram then listTree host path (·.lower.render)
  else if o.emitC then ofJob host ((compiler o).fileToC host path)
  else ofJob host ((compiler o).compile host path)

/-- The command. -/
def run (host : Host) (arguments : List Bytes) : Report :=
  match Options.read {} arguments with
  | .help => ⟨0, [.diagnostics usage]⟩
  | .wrong e => ⟨2, [.diagnostics (e.message ++ ascii "\n" ++ usage)]⟩
  | .given o arguments =>
    if o.version then succeed (ascii "chisel version " ++ version ++ ascii "\n")
    else match arguments with
      | [path] => runFile host o path
      | _ => fail (ascii "Error: Please provide exactly one argument (the file path)\n" ++ usage)

end CallLang.CommandLine
