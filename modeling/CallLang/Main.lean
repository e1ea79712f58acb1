import CallLang.CommandLine

/-!
# The command

Reads the one file that the arguments name, runs `CommandLine.run` and writes what it says. No process is started from
here: on this host no C compiler has a name, so that compiling ends with the message about it, and the listings and the
C text are what the command is for.
-/

namespace CallLang.Command

/-- The problem that an error of the machine stands for. -/
def problem : IO.Error → PathProblem
  | .permissionDenied .. => .denied
  | .inappropriateType .. => .notDirectory
  | _ => .missing

/-- What stands at a path of this machine. A directory can be opened and not read. -/
def entry (path : Bytes) : IO (Except PathProblem Entry) := do
  match String.fromUTF8? ⟨path.toArray⟩ with
  | none => return .error .missing
  | some name =>
    try
      let handle ← IO.FS.Handle.mk name .read
      let content ← try some <$> handle.readBinToEnd catch _ => pure none
      return .ok ((content.map fun bytes => .file bytes.toList).getD .directory)
    catch e => return .error (problem e)

/-- This machine, as far as one path of it is known. -/
def host (path : Bytes) (found : Except PathProblem Entry) : Host where
  entry p := if p = path then found else .error .missing
  named _ := none
  located _ := .error .missing
  scratch := ascii "a.c"
  elapsed _ := ascii "0s"

/-- Writes what an event writes. -/
def perform : Event → IO Unit
  | .output text => do ( ← IO.getStdout).write ⟨text.toArray⟩
  | .diagnostics text => do ( ← IO.getStderr).write ⟨text.toArray⟩
  | _ => pure ()

end CallLang.Command

open CallLang in
/-- The command. -/
def main (args : List String) : IO UInt32 := do
  let arguments := args.map fun a => a.toUTF8.toList
  let path :=
    match Options.read {} arguments with
    | .given _ [path] => path
    | _ => []
  let report := CommandLine.run (Command.host path ( ← Command.entry path)) arguments
  report.log.forM Command.perform
  return report.status.toUInt32
