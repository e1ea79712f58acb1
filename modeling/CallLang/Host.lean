import CallLang.Text.Decimal

/-!
# The host

What the compiler needs from the machine it runs on: files to read, a scratch file for the C text, C compilers to start.
What it does there is kept as a list of events, from which everything that can be seen from outside is read off.
-/

namespace CallLang

/-- The byte between the parts of a path. -/
def slash : UInt8 := 0x2F

/-- Why a path cannot be used. -/
inductive PathProblem where
  | missing
  | notDirectory
  | isDirectory
  | denied
  | tooLong
  | invalid
deriving DecidableEq, Repr

/-- The wording of a problem with a path. -/
def PathProblem.text : PathProblem → Bytes
  | .missing => ascii "no such file or directory"
  | .notDirectory => ascii "not a directory"
  | .isDirectory => ascii "is a directory"
  | .denied => ascii "permission denied"
  | .tooLong => ascii "file name too long"
  | .invalid => ascii "invalid argument"

/-- Why a file that is open cannot be written. -/
inductive WriteProblem where
  | noSpace
  | overQuota
  | tooLarge
  | device
deriving DecidableEq, Repr

/-- The wording of a problem with writing. -/
def WriteProblem.text : WriteProblem → Bytes
  | .noSpace => ascii "no space left on device"
  | .overQuota => ascii "disk quota exceeded"
  | .tooLarge => ascii "file too large"
  | .device => ascii "input/output error"

/-- What fails when a text is put into a file: the writing, or closing the file behind it. -/
inductive WriteFault where
  | write (problem : WriteProblem)
  | close (problem : WriteProblem)
deriving DecidableEq, Repr

/-- What is said when a text cannot be put into the file at a path. -/
def WriteFault.message (path : Bytes) : WriteFault → Bytes
  | .write problem => ascii "write " ++ path ++ ascii ": " ++ problem.text
  | .close problem => ascii "close " ++ path ++ ascii ": " ++ problem.text

/-- What stands at a path. -/
inductive Entry where
  | file (content : Bytes)
  | directory
deriving DecidableEq, Repr

/-- One start of a C compiler: its name, its arguments, and the C text in the scratch file. -/
structure Invocation where
  command : Bytes
  arguments : List Bytes
  source : Bytes
deriving DecidableEq, Repr

/-- How a process ends: with an exit status of its own, or by a signal, which may leave a dump of its memory. -/
inductive Exit where
  | status (code : UInt8)
  | signal (number : Nat) (dumped : Bool)
deriving DecidableEq, Repr

namespace Exit

/-- The name of a signal; the later ones are known by their numbers only. -/
def signalName : Nat → Bytes
  | 1 => ascii "hangup"
  | 2 => ascii "interrupt"
  | 3 => ascii "quit"
  | 4 => ascii "illegal instruction"
  | 5 => ascii "trace/breakpoint trap"
  | 6 => ascii "aborted"
  | 7 => ascii "bus error"
  | 8 => ascii "floating point exception"
  | 9 => ascii "killed"
  | 10 => ascii "user defined signal 1"
  | 11 => ascii "segmentation fault"
  | 12 => ascii "user defined signal 2"
  | 13 => ascii "broken pipe"
  | 14 => ascii "alarm clock"
  | 15 => ascii "terminated"
  | number => ascii "signal " ++ decimal number

/-- The wording of the end of a process. -/
def text : Exit → Bytes
  | .status code => ascii "exit status " ++ decimal code.toNat
  | .signal number dumped =>
    ascii "signal: " ++ signalName number ++ if dumped then ascii " (core dumped)" else []

end Exit

/-- How a C compiler ended, and what it wrote. -/
structure Completion where
  exit : Exit := .status 0
  output : Bytes := []
  diagnostics : Bytes := []
deriving DecidableEq, Repr

/-- A C compiler as it is seen from outside. -/
abbrev Tool := Invocation → Completion

/-- The stages of a compilation. -/
inductive Stage where
  | lex
  | parse
  | lower
  | generate
  | compile
deriving DecidableEq, Repr

/-- The name of a stage. -/
def Stage.name : Stage → Bytes
  | .lex => ascii "lex"
  | .parse => ascii "parse"
  | .lower => ascii "lower"
  | .generate => ascii "generate"
  | .compile => ascii "compile"

/-- What the compiler does on its host. -/
inductive Event where
  /-- A stage is over and is reported as such. -/
  | finished (stage : Stage)
  /-- A scratch file is made. -/
  | created (path : Bytes)
  /-- A scratch file is taken away. -/
  | removed (path : Bytes)
  /-- A C compiler is started. -/
  | started (invocation : Invocation)
  /-- Text is written to standard output. -/
  | output (text : Bytes)
  /-- Text is written to standard error. -/
  | diagnostics (text : Bytes)
deriving DecidableEq, Repr

/-- The machine that the compiler runs on. -/
structure Host where
  /-- What stands at a path. -/
  entry : Bytes → Except PathProblem Entry
  /-- The C compiler that a bare name stands for, and the path where it is found. -/
  named : Bytes → Option (Bytes × Tool)
  /-- The C compiler at a path. -/
  located : Bytes → Except PathProblem Tool
  /-- The path of the scratch file. -/
  scratch : Bytes
  /-- Why the scratch file cannot be made, if it cannot. -/
  scratchProblem : Option PathProblem := none
  /-- Why the C text cannot be put into the scratch file, if it cannot. -/
  writeFault : Option WriteFault := none
  /-- Whether the user has already called the compilation off. -/
  interrupted : Bool := false
  /-- The time a stage took, as it is shown. -/
  elapsed : Stage → Bytes

namespace Event

/-- The stages that were reported, in order. -/
def stages (log : List Event) : List Stage :=
  log.filterMap fun
    | .finished stage => some stage
    | _ => none

/-- The starts of C compilers, in order. -/
def invocations (log : List Event) : List Invocation :=
  log.filterMap fun
    | .started invocation => some invocation
    | _ => none

/-- What was written to standard output. -/
def outputText (log : List Event) : Bytes :=
  log.flatMap fun
    | .output text => text
    | _ => []

/-- What was written to standard error. -/
def diagnosticsText (log : List Event) : Bytes :=
  log.flatMap fun
    | .diagnostics text => text
    | _ => []

/-- The scratch files that are there after the events, when `present` were there before. -/
def scratchFiles (present : List Bytes) : List Event → List Bytes
  | [] => present
  | .created path :: log => scratchFiles (path :: present) log
  | .removed path :: log => scratchFiles (present.erase path) log
  | _ :: log => scratchFiles present log

end Event

end CallLang
