import CallLang.Host
import CallLang.Text.Blank

/-!
# The C compiler

`Toolchain.build` puts the C text into a scratch file, runs the C compiler on it and takes the scratch file away again,
whatever happens in between: also if the C text could not be put there.
-/

namespace CallLang

/-- Why a C compiler has not done its work. -/
inductive ToolCause where
  /-- The name is empty. -/
  | noCommand
  /-- No C compiler has that name. -/
  | notFound (name : Bytes)
  /-- What has that name cannot be run. -/
  | misnamed (name : Bytes) (problem : PathProblem)
  /-- What stands at the path cannot be run. -/
  | notStarted (path : Bytes) (problem : PathProblem)
  /-- The user has called the compilation off. -/
  | interrupted
  /-- The C compiler was started and has failed. -/
  | exited (exit : Exit)
  /-- A cause given in words. -/
  | other (text : Bytes)
deriving DecidableEq, Repr

/-- The wording of a cause. -/
def ToolCause.text : ToolCause → Bytes
  | .noCommand => ascii "exec: no command"
  | .notFound name => ascii "exec: " ++ Quoted.quote name ++ ascii ": executable file not found in $PATH"
  | .misnamed name problem => ascii "exec: " ++ Quoted.quote name ++ ascii ": " ++ problem.text
  | .notStarted path problem => ascii "fork/exec " ++ path ++ ascii ": " ++ problem.text
  | .interrupted => ascii "context canceled"
  | .exited exit => exit.text
  | .other text => text

/-- A C compiler that could not be run or has failed, with what it wrote to standard error. -/
structure ToolchainError where
  command : Bytes
  arguments : List Bytes
  output : Bytes
  cause : ToolCause
deriving DecidableEq, Repr

/-- The message of a toolchain error: the cause, and below it what the C compiler wrote. -/
def ToolchainError.message (e : ToolchainError) : Bytes :=
  e.command ++ ascii " failed: " ++ e.cause.text ++
    match e.output.trim with
    | [] => []
    | output => ascii "\n" ++ output

/-- Why there is no executable. -/
inductive BuildError where
  /-- The scratch file cannot be made. -/
  | scratch (path : Bytes) (problem : PathProblem)
  /-- The C text cannot be put into the scratch file. -/
  | unwritten (path : Bytes) (fault : WriteFault)
  | toolchain (error : ToolchainError)
deriving DecidableEq, Repr

/-- The message of a build error. -/
def BuildError.message : BuildError → Bytes
  | .scratch path problem =>
    ascii "failed to create temp source file: open " ++ path ++ ascii ": " ++ problem.text
  | .unwritten path fault => ascii "failed to write temp source file: " ++ fault.message path
  | .toolchain e => e.message

/-- A C compiler and how it is run. -/
structure Toolchain where
  command : Bytes
  flags : List Bytes
  output : Bytes
  /-- Whether what the C compiler writes is passed on. -/
  streaming : Bool := false
deriving DecidableEq, Repr

namespace Toolchain

/-- The strict flags that C texts are compiled with. -/
def defaultFlags : List Bytes :=
  ["-std=c2x", "-pedantic-errors", "-Wall", "-Wextra", "-Wconversion", "-Wshadow", "-Wstrict-aliasing=3",
    "-Wcast-align", "-Wcast-qual", "-Wwrite-strings", "-Wformat=2", "-Wswitch-enum", "-Wswitch-default",
    "-Wfloat-equal", "-Wundef", "-Wredundant-decls", "-Wpointer-arith", "-Winit-self", "-Wmissing-declarations",
    "-Wmissing-prototypes", "-Wstrict-prototypes", "-Wold-style-definition", "-Werror", "-fno-common", "-O3", "-flto",
    "-march=native", "-funroll-loops", "-fstack-protector-strong", "-fstack-clash-protection", "-D_FORTIFY_SOURCE=2",
    "-fPIC",
    "-fsanitize=undefined,address,leak,signed-integer-overflow,shift,alignment,bounds,object-size," ++
      "float-divide-by-zero,float-cast-overflow",
    "-fno-omit-frame-pointer", "-fvisibility=hidden"].map ascii

/-- The C compiler that is used unless another is named. -/
def defaultCommand : Bytes := ascii "gcc"

/-- The executable that is made unless another is named. -/
def defaultOutput : Bytes := ascii "./a.out"

/-- The toolchain without any settings. -/
def standard : Toolchain where
  command := defaultCommand
  flags := defaultFlags
  output := defaultOutput

/-- Whether the C compiler can be found. -/
def available (host : Host) (t : Toolchain) : Bool :=
  if slash ∈ t.command then (host.located t.command).toOption.isSome
  else t.command != [] && (host.named t.command).isSome

/-- The arguments of the C compiler. -/
def arguments (t : Toolchain) (scratch : Bytes) : List Bytes :=
  t.flags ++ [scratch, ascii "-o", t.output]

/-- Looks a command up: its path, and the C compiler there. A bare name has to be known; what stands at a path is only
found out when it is started. The root is looked up as a name, and it is a directory. -/
def lookUp (host : Host) (command : Bytes) : Except ToolCause (Bytes × Except PathProblem Tool) :=
  if command = [] then .error .noCommand
  else if command = [slash] then .error (.misnamed command .isDirectory)
  else if slash ∈ command then .ok (command, host.located command)
  else match host.named command with
    | none => .error (.notFound command)
    | some (path, tool) => .ok (path, .ok tool)

/-- Finds the C compiler and makes sure that it may be started. It is looked up before anything else, and it is not
started with an argument that holds a null byte. -/
def find (host : Host) (command : Bytes) (arguments : List Bytes) : Except ToolCause Tool :=
  match lookUp host command with
  | .error cause => .error cause
  | .ok (path, found) =>
    if host.interrupted then .error .interrupted
    else if arguments.any (0 ∈ ·) then .error (.notStarted path .invalid)
    else found.mapError (.notStarted path)

/-- What is passed on of what a C compiler has written. -/
def passedOn (t : Toolchain) (c : Completion) : List Event :=
  if t.streaming then [.output c.output, .diagnostics c.diagnostics] else []

/-- Runs the C compiler on a scratch file that is there: what happens meanwhile, and the executable. -/
def compile (host : Host) (t : Toolchain) (source : Bytes) : List Event × Except BuildError Bytes :=
  let arguments := t.arguments host.scratch
  match find host t.command arguments with
  | .error cause => ([], .error (.toolchain ⟨t.command, arguments, [], cause⟩))
  | .ok tool =>
    let invocation : Invocation := ⟨t.command, arguments, source⟩
    let completion := tool invocation
    (.started invocation :: t.passedOn completion,
      if completion.exit = .status 0 then .ok t.output
      else .error (.toolchain ⟨t.command, arguments, completion.diagnostics, .exited completion.exit⟩))

/-- Puts a C text into a scratch file that is there, and runs the C compiler on it. -/
def writeAndCompile (host : Host) (t : Toolchain) (source : Bytes) : List Event × Except BuildError Bytes :=
  match host.writeFault with
  | some fault => ([], .error (.unwritten host.scratch fault))
  | none => t.compile host source

/-- Compiles a C text: what happens, and the executable. -/
def build (host : Host) (t : Toolchain) (source : Bytes) : List Event × Except BuildError Bytes :=
  match host.scratchProblem with
  | some problem => ([], .error (.scratch host.scratch problem))
  | none =>
    let (log, result) := t.writeAndCompile host source
    (.created host.scratch :: log ++ [.removed host.scratch], result)

end Toolchain

end CallLang
