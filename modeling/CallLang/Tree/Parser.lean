import CallLang.Tree
import CallLang.Tree.ParseError

/-!
# Parsing

Tokens are read as statements, one after the other, and the first thing that is wrong ends the run. A parser stays where
a run has stopped, so that a next run can go on from there.

- `Parser.statement` reads one statement; the body of a function is split off up to its matching brace, as tokens;
- `Parser.program` reads all statements and, in the same way, the bodies that were split off;
- `parse` is a run over all tokens; a `Parser.Session` is what a parser keeps between two runs, and `Parser.runs` are
  several runs, each from where the one before has stopped.

A run that meets the end of its tokens too early points to the last token that the parser was given. In a body that is the
last token of the body.
-/

namespace CallLang

/-- A list as a block: a list without elements is left out. -/
def Node.Block.ofList : List Node → Node.Block
  | [] => none
  | nodes => some nodes

/-- The outcome of reading: a value or an error, and the tokens that are left. -/
inductive Outcome (α : Type) where
  | done (value : α) (rest : List Token)
  | failed (error : ParseError) (rest : List Token)

namespace Outcome

variable {α β : Type}

/-- The tokens that are left. -/
def left : Outcome α → List Token
  | .done _ rest => rest
  | .failed _ rest => rest

/-- The outcome with its value changed by `f`. -/
def map (f : α → β) : Outcome α → Outcome β
  | .done a rest => .done (f a) rest
  | .failed e rest => .failed e rest

/-- The tree of the statements that were read. -/
def tree (file : Bytes) : Outcome (List Node) → Except ParseError Tree
  | .done nodes _ => .ok ⟨file, Node.Block.ofList nodes⟩
  | .failed e _ => .error e

end Outcome

/-- A reader of tokens. It also knows the place to which an early end of the tokens is put down. -/
def Parser (α : Type) := (ending : Option Location) → List Token → Outcome α

namespace Parser

instance : Monad Parser where
  pure a := fun _ tokens => .done a tokens
  bind p f := fun ending tokens =>
    match p ending tokens with
    | .done a rest => f a ending rest
    | .failed e rest => .failed e rest

variable {α β : Type}

/-- Fails at a given place. -/
def fail (place : Option Location) (reason : Reason) : Parser α :=
  fun _ tokens => .failed ⟨place, reason⟩ tokens

/-- Takes the next token, or fails at the end with the given reason. -/
def token (atEnd : Reason) : Parser Token
  | ending, [] => .failed ⟨ending, atEnd⟩ []
  | _, t :: rest => .done t rest

/-- Takes the token that fills a place. -/
def expect (slot : Slot) : Parser Token := do
  let t ← token (.endBefore slot)
  if t.kind = slot.kind then pure t else fail t.place (.mismatch slot t)

/-! ## Statements -/

/-- Splits off the tokens before the brace that closes the current block, with `depth` more blocks open inside it; the
second list is what follows the brace. -/
def splitBody : (depth : Nat) → List Token → Option (List Token × List Token)
  | _, [] => none
  | depth, t :: rest =>
    match t.kind, depth with
    | .closeBrace, 0 => some ([], rest)
    | .closeBrace, depth + 1 => (splitBody depth rest).map fun (body, after) => (t :: body, after)
    | .openBrace, depth => (splitBody (depth + 1) rest).map fun (body, after) => (t :: body, after)
    | _, depth => (splitBody depth rest).map fun (body, after) => (t :: body, after)

/-- Takes the body of a function and its closing brace. -/
def body : Parser (List Token) :=
  fun ending tokens =>
    match splitBody 0 tokens with
    | some (body, rest) => .done body rest
    | none => .failed ⟨ending, .endInBody⟩ []

/-- The node of a literal token. -/
def literal (t : Token) : Node :=
  .literal ⟨if t.kind = .string then .string else .number, t.value⟩ t.place

/-- One statement as it is read: a node, or a function whose body is still a list of tokens. -/
inductive Statement where
  | node (n : Node)
  | function (name : Bytes) (type : ReturnType) (place : Option Location) (body : List Token)

/-- The rest of an import. -/
def importing (start : Token) : Parser Statement := do
  let name ← expect .importName
  let _ ← expect .importFrom
  let module ← expect .importModule
  let _ ← expect .importEnd
  pure (.node (.importing module.value name.value start.place))

/-- The rest of a function. -/
def function (start : Token) : Parser Statement :=
  match ReturnType.ofName? start.value with
  | none => fail start.place (.unknownType start.value)
  | some type => do
    let _ ← expect .functionWord
    let name ← expect .functionName
    let _ ← expect .parametersOpen
    let _ ← expect .parametersClose
    let _ ← expect .bodyOpen
    let tokens ← body
    pure (.function name.value type start.place tokens)

/-- A token that would stand for a second argument: a literal or a comma. -/
def isExtra (t : Token) : Bool :=
  t.isLiteral || (t.kind == .unknown && t.value == ascii ",")

/-- Makes sure that no second argument follows. Nothing is taken. -/
def noExtra (name : Bytes) : Parser Unit
  | _, [] => .done () []
  | _, t :: rest =>
    if isExtra t then .failed ⟨t.place, .extraArgument name⟩ (t :: rest) else .done () (t :: rest)

/-- The arguments of a call and its closing parenthesis. -/
def arguments (name : Bytes) : Parser Node.Block := do
  let t ← token .endInArguments
  if t.kind = .closeParen then pure none
  else if t.isLiteral then do
    noExtra name
    let _ ← expect .argumentsClose
    pure (some [literal t])
  else fail t.place (.badArgument t)

/-- The rest of a call. -/
def call (start : Token) : Parser Statement := do
  let _ ← expect .argumentsOpen
  let arguments ← arguments start.value
  let _ ← expect .callEnd
  pure (.node (.call start.value arguments start.place))

/-- The rest of a statement that is a literal: the semicolon. -/
def literalStatement (start : Token) : Parser Statement
  | _, [] => .failed ⟨start.place, .strayLiteral⟩ []
  | _, t :: rest =>
    if t.kind = .semicolon then .done (.node (literal start)) rest
    else .failed ⟨start.place, .strayLiteral⟩ (t :: rest)

/-- The rest of the statement that a token starts. -/
def statement (start : Token) : Parser Statement :=
  match start.kind with
  | .importWord => importing start
  | .typeName => function start
  | .identifier => call start
  | .number | .string => literalStatement start
  | _ => fail start.place (.unexpected start)

/-! ## Reading takes tokens -/

/-- A reader that leaves no more tokens than it was given, less `size` of what it reads. -/
def Shrinks (size : α → Nat) (p : Parser α) : Prop :=
  ∀ ending tokens a rest, p ending tokens = .done a rest → size a + rest.length ≤ tokens.length

theorem shrinks_pure {size : α → Nat} {a : α} (h : size a = 0) : Shrinks size (pure a) := by
  intro _ _ _ _ he
  cases he
  omega

theorem shrinks_fail {size : α → Nat} {place : Option Location} {reason : Reason} :
    Shrinks size (fail place reason : Parser α) := by
  intro _ _ _ _ he
  cases he

theorem shrinks_bind {size : β → Nat} {p : Parser α} {f : α → Parser β} (hp : Shrinks (fun _ => 0) p)
    (hf : ∀ a, Shrinks size (f a)) : Shrinks size (p >>= f) := by
  intro ending tokens b rest he
  simp only [bind] at he
  split at he
  · next hd =>
    have h1 := hp _ _ _ _ hd
    have h2 := hf _ _ _ _ _ he
    omega
  · cases he

theorem shrinks_token (atEnd : Reason) : Shrinks (fun _ => 0) (token atEnd) := by
  intro _ tokens _ _ he
  cases tokens with
  | nil => cases he
  | cons t rest => cases he; simp

theorem shrinks_expect (slot : Slot) : Shrinks (fun _ => 0) (expect slot) := by
  refine shrinks_bind (shrinks_token _) fun t => ?_
  split
  · exact shrinks_pure rfl
  · exact shrinks_fail

theorem length_splitBody {depth : Nat} {tokens body rest : List Token}
    (h : splitBody depth tokens = some (body, rest)) : body.length + rest.length < tokens.length := by
  induction tokens generalizing depth body with
  | nil => cases h
  | cons t tokens ih =>
    unfold splitBody at h
    split at h
    · cases h; simp
    all_goals
      obtain ⟨⟨b, r⟩, hs, he⟩ := Option.map_eq_some_iff.1 h
      cases he
      have := ih hs
      simp only [List.length_cons]
      omega

theorem shrinks_body : Shrinks List.length body := by
  intro ending tokens b rest he
  unfold body at he
  split at he
  · next hs => cases he; exact Nat.le_of_lt (length_splitBody hs)
  · cases he

/-- The number of tokens that a statement has put aside. -/
def Statement.aside : Statement → Nat
  | .node _ => 0
  | .function _ _ _ body => body.length

theorem shrinks_noExtra (name : Bytes) : Shrinks (fun _ => 0) (noExtra name) := by
  intro _ tokens _ _ he
  cases tokens with
  | nil => cases he; simp
  | cons t rest =>
    simp only [noExtra] at he
    split at he <;> cases he
    simp

theorem shrinks_arguments (name : Bytes) : Shrinks (fun _ => 0) (arguments name) := by
  refine shrinks_bind (shrinks_token _) fun t => ?_
  split
  · exact shrinks_pure rfl
  · split
    · exact shrinks_bind (shrinks_noExtra name) fun _ => shrinks_bind (shrinks_expect _) fun _ => shrinks_pure rfl
    · exact shrinks_fail

theorem shrinks_literalStatement (start : Token) : Shrinks Statement.aside (literalStatement start) := by
  intro _ tokens _ _ he
  cases tokens with
  | nil => cases he
  | cons t rest =>
    simp only [literalStatement] at he
    split at he <;> cases he
    simp [Statement.aside]

theorem shrinks_function (start : Token) : Shrinks Statement.aside (function start) := by
  unfold function
  split
  · exact shrinks_fail
  · refine shrinks_bind (shrinks_expect _) fun _ => shrinks_bind (shrinks_expect _) fun _ =>
      shrinks_bind (shrinks_expect _) fun _ => shrinks_bind (shrinks_expect _) fun _ =>
      shrinks_bind (shrinks_expect _) fun _ => ?_
    intro ending tokens s rest he
    simp only [bind] at he
    split at he
    · next hb => cases he; exact shrinks_body _ _ _ _ hb
    · cases he

/-- What a statement puts aside and what it leaves are together no more than it was given. -/
theorem shrinks_statement (start : Token) : Shrinks Statement.aside (statement start) := by
  unfold statement
  split
  · exact shrinks_bind (shrinks_expect _) fun _ => shrinks_bind (shrinks_expect _) fun _ =>
      shrinks_bind (shrinks_expect _) fun _ => shrinks_bind (shrinks_expect _) fun _ => shrinks_pure rfl
  · exact shrinks_function start
  · exact shrinks_bind (shrinks_expect _) fun _ => shrinks_bind (shrinks_arguments _) fun _ =>
      shrinks_bind (shrinks_expect _) fun _ => shrinks_pure rfl
  · exact shrinks_literalStatement start
  · exact shrinks_literalStatement start
  · exact shrinks_fail

/-! ## Programs -/

/-- The place of the last token. -/
def lastPlace (tokens : List Token) : Option Location :=
  tokens.getLast?.bind Token.place

/-- Reads statements up to the end of the tokens. -/
def program (ending : Option Location) (tokens : List Token) : Outcome (List Node) :=
  match tokens with
  | [] => .done [] []
  | start :: rest =>
    match _h : statement start ending rest with
    | .failed e left => .failed e left
    | .done (.node n) left => (program ending left).map (n :: ·)
    | .done (.function name type place body) left =>
      match program (lastPlace body) body with
      | .failed e _ => .failed e left
      | .done nodes _ =>
        (program ending left).map (.function name none (Node.Block.ofList nodes) type place :: ·)
termination_by tokens.length
decreasing_by
  all_goals
    have := shrinks_statement _ _ _ _ _ _h
    simp only [Statement.aside] at this
    simp only [List.length_cons]
    omega

/-- One run over tokens. -/
def run (tokens : List Token) : Outcome (List Node) :=
  program (lastPlace tokens) tokens

/-- A parser between two runs: the tokens that it was given, and how many of them it has read. -/
structure Session where
  file : Bytes
  tokens : List Token
  position : Nat := 0
deriving DecidableEq, Repr

namespace Session

/-- One run over the tokens that are not read yet. An early end is put down to the last of all tokens. -/
def run (s : Session) : Except ParseError Tree × Session :=
  let outcome := program (lastPlace s.tokens) (s.tokens.drop s.position)
  (outcome.tree s.file, { s with position := s.tokens.length - outcome.left.length })

/-- The results of `n` runs, each from where the one before has stopped. -/
def runs (s : Session) : Nat → List (Except ParseError Tree)
  | 0 => []
  | n + 1 => s.run.1 :: s.run.2.runs n

end Session

/-- The results of `n` runs of a parser over some tokens. -/
def runs (file : Bytes) (tokens : List Token) (n : Nat) : List (Except ParseError Tree) :=
  Session.runs { file := file, tokens := tokens } n

end Parser

/-- The tree of a list of tokens. -/
def parse (file : Bytes) (tokens : List Token) : Except ParseError Tree :=
  (Parser.run tokens).tree file

end CallLang
