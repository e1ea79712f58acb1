import CallLang.Text.Bytes

/-!
# Listings

A listing shows something nested as lines in preorder, each indented by two spaces for each level.
-/

namespace CallLang

/-- One line of a listing: its level and its text. -/
structure Line where
  depth : Nat
  text : Bytes
deriving DecidableEq, Repr

namespace Line

/-- A line as it is written. -/
def render (l : Line) : Bytes :=
  Bytes.indent l.depth ++ l.text ++ ascii "\n"

/-- Lines as they are written, one after the other. -/
def renderAll (lines : List Line) : Bytes :=
  lines.flatMap render

end Line

end CallLang
