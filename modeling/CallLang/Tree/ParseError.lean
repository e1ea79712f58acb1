import CallLang.Token

/-!
# Parse errors

What can be wrong with a list of tokens, and where. `Reason.text` has the wording of every cause, and
`ParseError.message` puts the place in front.
-/

namespace CallLang

/-- The places in a statement that one particular kind of token has to fill. -/
inductive Slot where
  | importName
  | importFrom
  | importModule
  | importEnd
  | functionWord
  | functionName
  | parametersOpen
  | parametersClose
  | bodyOpen
  | argumentsOpen
  | argumentsClose
  | callEnd
deriving DecidableEq, Repr

namespace Slot

/-- The kind of token that fills a place. -/
def kind : Slot → Kind
  | .importName | .importModule | .functionName => .identifier
  | .importFrom => .fromWord
  | .functionWord => .fnWord
  | .importEnd | .callEnd => .semicolon
  | .parametersOpen | .argumentsOpen => .openParen
  | .parametersClose | .argumentsClose => .closeParen
  | .bodyOpen => .openBrace

/-- How messages speak of a place. -/
def words : Slot → Bytes
  | .importName => ascii "identifier after import"
  | .importFrom => ascii "'from' after import identifier"
  | .importModule => ascii "module identifier after from"
  | .importEnd => ascii "semicolon after import statement"
  | .functionWord => ascii "fn after type"
  | .functionName => ascii "function name after fn"
  | .parametersOpen => ascii "open paren after function name"
  | .parametersClose => ascii "close paren after open paren"
  | .bodyOpen => ascii "open brace after close paren"
  | .argumentsOpen => ascii "open paren after identifier"
  | .argumentsClose => ascii "close paren after literal"
  | .callEnd => ascii "semicolon after function call"

end Slot

/-- What is wrong with a list of tokens. -/
inductive Reason where
  /-- The tokens end where a place has to be filled. -/
  | endBefore (slot : Slot)
  /-- The tokens end after the open parenthesis of a call. -/
  | endInArguments
  /-- The tokens end before the closing brace of a function. -/
  | endInBody
  /-- A token does not fill the place it stands at. -/
  | mismatch (slot : Slot) (got : Token)
  /-- A token in a call is neither a literal nor a closing parenthesis. -/
  | badArgument (got : Token)
  /-- A call has something that looks like a second argument. -/
  | extraArgument (function : Bytes)
  /-- A function has a type that does not exist. -/
  | unknownType (name : Bytes)
  /-- A literal is not followed by a semicolon. -/
  | strayLiteral
  /-- A token starts no statement. -/
  | unexpected (got : Token)
  /-- A reason given in words. -/
  | other (text : Bytes)
deriving DecidableEq, Repr

namespace Reason

/-- What a message calls a token that starts no statement. -/
def unexpectedText (got : Token) : Bytes :=
  match got.kind with
  | .semicolon => ascii "unexpected semicolon"
  | .fromWord => ascii "unexpected from"
  | .fnWord => ascii "unexpected fn"
  | .openBrace => ascii "unexpected open brace"
  | .closeBrace => ascii "unexpected close brace"
  | .openParen => ascii "unexpected open paren"
  | .closeParen => ascii "unexpected close paren"
  | .unknown => ascii "syntax error: unknown symbol '" ++ got.value ++ ascii "'"
  | _ => ascii "unexpected " ++ got.describe

/-- The wording of a reason. -/
def text : Reason → Bytes
  | .endBefore slot => ascii "unexpected EOF: expected " ++ slot.words
  | .endInArguments => ascii "unexpected EOF: expected close paren or literal after open paren"
  | .endInBody => ascii "unexpected EOF: expected close brace in function body"
  | .mismatch slot got => ascii "expected " ++ slot.words ++ ascii ", got " ++ got.describe
  | .badArgument got => ascii "expected close paren or literal, got " ++ got.describe
  | .extraArgument function =>
    ascii "too many arguments in call to " ++ function ++ ascii ": at most one literal is allowed"
  | .unknownType name => ascii "unknown type '" ++ name ++ ascii "'"
  | .strayLiteral => ascii "unexpected literal"
  | .unexpected got => unexpectedText got
  | .other text => text

end Reason

/-- The first thing that is wrong with a list of tokens, and its place. -/
structure ParseError where
  place : Option Location
  reason : Reason
deriving DecidableEq, Repr

/-- The message of a parse error. -/
def ParseError.message (e : ParseError) : Bytes :=
  Location.tagged e.place e.reason.text

end CallLang
