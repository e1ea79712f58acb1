import CallLang.Text.Decimal

/-!
# Places in a source

`Position` is where a scanner stands. `Location` is the place that a token, a node or a message carries; it may also
come from outside, so its numbers are integers and it may be missing.
-/

namespace CallLang

/-- A place in a source text: line and column from 1, the column in symbols, and the offset in bytes from 0. -/
structure Position where
  line : Nat := 1
  column : Nat := 1
  offset : Nat := 0
deriving DecidableEq, Repr

namespace Position

/-- The place after one more symbol. Only a line feed starts a new line. -/
def advance (p : Position) (r : Symbol) : Position :=
  if r.scalar = '\n' then ⟨p.line + 1, 1, p.offset + r.width⟩ else ⟨p.line, p.column + 1, p.offset + r.width⟩

@[simp] theorem offset_advance (p : Position) (r : Symbol) : (p.advance r).offset = p.offset + r.width := by
  unfold advance
  split <;> rfl

end Position

/-- A place in a named source. -/
structure Location where
  file : Bytes
  line : Int
  column : Int
  offset : Int
deriving DecidableEq, Repr

namespace Location

/-- The place of a scanner in the file it reads. -/
def ofPosition (file : Bytes) (p : Position) : Location :=
  ⟨file, p.line, p.column, p.offset⟩

/-- The text `file:line:column`. -/
def render (l : Location) : Bytes :=
  l.file ++ ascii ":" ++ signed l.line ++ ascii ":" ++ signed l.column

/-- The text of a place that may be missing. -/
def renderOr : Option Location → Bytes
  | some l => l.render
  | none => ascii "-"

/-- A message with its place in front, or alone when it has none. -/
def tagged (place : Option Location) (message : Bytes) : Bytes :=
  match place with
  | some l => l.render ++ ascii ": " ++ message
  | none => message

end Location

end CallLang
