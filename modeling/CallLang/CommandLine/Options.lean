import CallLang.Toolchain

/-!
# Command line options

Options stand before the file, each as `-name` or `--name`. A switch is on by itself and takes a value only as
`-name=value`; a setting takes its value as `-name=value` or from the next argument. The first argument that is no
option ends them, and so does `--`, which is dropped. Of two values for one option the later one counts.
-/

namespace CallLang

/-- What the options say. -/
structure Options where
  command : Bytes := Toolchain.defaultCommand
  output : Bytes := Toolchain.defaultOutput
  emitTokens : Bool := false
  emitTree : Bool := false
  emitProgram : Bool := false
  emitC : Bool := false
  trace : Bool := false
  version : Bool := false
deriving DecidableEq, Repr

/-- What can be wrong with an option. -/
inductive OptionError where
  | undefined (name : Bytes)
  | needsArgument (name : Bytes)
  | badSwitch (value name : Bytes)
  | badForm (argument : Bytes)
deriving DecidableEq, Repr

/-- The message about an option. -/
def OptionError.message : OptionError → Bytes
  | .undefined name => ascii "flag provided but not defined: -" ++ name
  | .needsArgument name => ascii "flag needs an argument: -" ++ name
  | .badSwitch value name =>
    ascii "invalid boolean value " ++ Quoted.quote value ++ ascii " for -" ++ name ++ ascii ": parse error"
  | .badForm argument => ascii "bad flag syntax: " ++ argument

/-- What a list of arguments asks for. -/
inductive Request where
  /-- The options, and the arguments after them. -/
  | given (options : Options) (arguments : List Bytes)
  /-- The usage. -/
  | help
  | wrong (error : OptionError)
deriving DecidableEq, Repr

/-- The two sorts of option, as what a value does to the options. -/
inductive OptionSort where
  | switch (set : Options → Bool → Options)
  | setting (set : Options → Bytes → Options)

namespace Options

/-- The option with a given name. -/
def sort? (name : Bytes) : Option OptionSort :=
  if name = ascii "o" then some (.setting fun o v => { o with output := v })
  else if name = ascii "cc" then some (.setting fun o v => { o with command := v })
  else if name = ascii "emit-tokens" then some (.switch fun o v => { o with emitTokens := v })
  else if name = ascii "emit-ast" then some (.switch fun o v => { o with emitTree := v })
  else if name = ascii "emit-ic" then some (.switch fun o v => { o with emitProgram := v })
  else if name = ascii "emit-c" then some (.switch fun o v => { o with emitC := v })
  else if name = ascii "trace" then some (.switch fun o v => { o with trace := v })
  else if name = ascii "version" then some (.switch fun o v => { o with version := v })
  else none

/-- Whether a name asks for the usage. -/
def isHelp (name : Bytes) : Bool :=
  name == ascii "help" || name == ascii "h"

/-- The texts that turn a switch on. -/
def onTexts : List Bytes :=
  ["1", "t", "T", "TRUE", "true", "True"].map ascii

/-- The texts that turn a switch off. -/
def offTexts : List Bytes :=
  ["0", "f", "F", "FALSE", "false", "False"].map ascii

/-- What a text does to a switch. -/
def switchValue? (text : Bytes) : Option Bool :=
  if text ∈ onTexts then some true else if text ∈ offTexts then some false else none

/-- The byte that starts an option. -/
def dash : UInt8 := 0x2D

/-- The byte between an option and its value. -/
def equals : UInt8 := 0x3D

/-- An argument as it stands among options. -/
inductive Form where
  /-- No option: this argument and all after it are left. -/
  | plain
  /-- The end of the options. -/
  | ending
  | malformed
  | option (name : Bytes) (value : Option Bytes)
deriving DecidableEq, Repr

/-- Splits a name from the value after the first equals sign. -/
def splitValue (text : Bytes) : Bytes × Option Bytes :=
  match text.dropWhile (· != equals) with
  | [] => (text, none)
  | _ :: value => (text.takeWhile (· != equals), some value)

/-- The form of what follows the dashes of an argument. -/
def formOfName : Bytes → Form
  | [] => .malformed
  | b :: rest =>
    if b = dash ∨ b = equals then .malformed
    else .option (splitValue (b :: rest)).1 (splitValue (b :: rest)).2

/-- The form of an argument. -/
def form : Bytes → Form
  | [] => .plain
  | [_] => .plain
  | a :: b :: rest =>
    if a ≠ dash then .plain
    else if b ≠ dash then formOfName (b :: rest)
    else if rest = [] then .ending
    else formOfName rest

/-- Reads the options at the head of a list of arguments. -/
def read (o : Options) : List Bytes → Request
  | [] => .given o []
  | argument :: rest =>
    match form argument with
    | .plain => .given o (argument :: rest)
    | .ending => .given o rest
    | .malformed => .wrong (.badForm argument)
    | .option name value =>
      match sort? name with
      | none => if isHelp name then .help else .wrong (.undefined name)
      | some (.switch set) =>
        match value with
        | none => read (set o true) rest
        | some text =>
          match switchValue? text with
          | some on => read (set o on) rest
          | none => .wrong (.badSwitch text name)
      | some (.setting set) =>
        match value, rest with
        | some text, rest => read (set o text) rest
        | none, text :: rest => read (set o text) rest
        | none, [] => .wrong (.needsArgument name)

end Options

end CallLang
