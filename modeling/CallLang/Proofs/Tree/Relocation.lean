import CallLang.Tree.Parser

/-!
# Tokens with other places

The parser passes places on and never looks at them: if all places of its tokens are moved, the places of its tree and
of its error are moved in the same way, and nothing else is changed.

- `relocate` moves the places of a token, a reason, an error, a node or a tree by any function;
- `Parser.Commutes` says this of a reader, and every reader has it (`commutes_statement`);
- `parse_relocate` is the statement for the parser as a whole;
- `place_of_parse_error` follows: a function that moves all places but those of the tokens moves nothing, so the place
  of an error is the place of a token.
-/

namespace CallLang

variable (φ : Option Location → Option Location)

/-! ## Moving places -/

/-- The token at another place. -/
def Token.relocate (t : Token) : Token :=
  { t with place := φ t.place }

@[simp] theorem Token.kind_relocate (t : Token) : (t.relocate φ).kind = t.kind :=
  rfl

@[simp] theorem Token.value_relocate (t : Token) : (t.relocate φ).value = t.value :=
  rfl

@[simp] theorem Token.isLiteral_relocate (t : Token) : (t.relocate φ).isLiteral = t.isLiteral :=
  rfl

/-- The reason about the tokens at their other places. -/
def Reason.relocate : Reason → Reason
  | .mismatch slot got => .mismatch slot (got.relocate φ)
  | .badArgument got => .badArgument (got.relocate φ)
  | .unexpected got => .unexpected (got.relocate φ)
  | reason => reason

/-- What a reason says does not depend on places. -/
theorem Reason.text_relocate (reason : Reason) : (reason.relocate φ).text = reason.text := by
  cases reason <;> rfl

/-- The error at another place. -/
def ParseError.relocate (e : ParseError) : ParseError :=
  ⟨φ e.place, e.reason.relocate φ⟩

namespace Node

mutual

/-- The node with all its places moved. -/
def relocate : Node → Node
  | .missing => .missing
  | .literal value place => .literal value (φ place)
  | .importing module name place => .importing module name (φ place)
  | .function name parameters body type place =>
    .function name (relocateBlock parameters) (relocateBlock body) type (φ place)
  | .call name arguments place => .call name (relocateBlock arguments) (φ place)

/-- A list of nodes that may be missing, with all places moved. -/
def relocateBlock : Option (List Node) → Option (List Node)
  | none => none
  | some nodes => some (relocateAll nodes)

/-- A list of nodes with all places moved. -/
def relocateAll : List Node → List Node
  | [] => []
  | n :: rest => relocate n :: relocateAll rest

end

theorem relocateBlock_ofList (nodes : List Node) :
    relocateBlock φ (Block.ofList nodes) = Block.ofList (relocateAll φ nodes) := by
  cases nodes <;> rfl

end Node

/-- The tree with all its places moved. -/
def Tree.relocate (t : Tree) : Tree :=
  ⟨t.file, Node.relocateBlock φ t.statements⟩

/-- The statement with all its places moved. -/
def Parser.Statement.relocate : Parser.Statement → Parser.Statement
  | .node n => .node (n.relocate φ)
  | .function name type place body => .function name type (φ place) (body.map (Token.relocate φ))

/-- The outcome with all places of its tokens moved, and its value changed by `f`. -/
def Outcome.relocate {α : Type} (f : α → α) : Outcome α → Outcome α
  | .done a rest => .done (f a) (rest.map (Token.relocate φ))
  | .failed e rest => .failed (e.relocate φ) (rest.map (Token.relocate φ))

/-! ## Readers -/

namespace Parser

variable {α β : Type} {f : α → α} {g : β → β}

/-- On moved tokens, the second reader gives what the first one gives, moved. -/
def Commutes (f : α → α) (p p' : Parser α) : Prop :=
  ∀ ending tokens, p' (φ ending) (tokens.map (Token.relocate φ)) = (p ending tokens).relocate φ f

variable {φ}

theorem commutes_pure (a : α) : Commutes φ f (pure a) (pure (f a)) := by
  intro ending tokens
  rfl

theorem commutes_fail (place : Option Location) (reason : Reason) :
    Commutes φ f (fail place reason) (fail (φ place) (reason.relocate φ)) := by
  intro ending tokens
  rfl

theorem commutes_bind {p p' : Parser α} {k k' : α → Parser β} (hp : Commutes φ f p p')
    (hk : ∀ a, Commutes φ g (k a) (k' (f a))) : Commutes φ g (p >>= k) (p' >>= k') := by
  intro ending tokens
  simp only [bind, hp ending tokens]
  cases p ending tokens with
  | done a rest => exact hk a ending rest
  | failed e rest => rfl

theorem commutes_token (atEnd : Reason) (h : atEnd.relocate φ = atEnd) :
    Commutes φ (Token.relocate φ) (token atEnd) (token atEnd) := by
  intro ending tokens
  cases tokens with
  | nil => simp [token, Outcome.relocate, ParseError.relocate, h]
  | cons t rest => rfl

theorem commutes_expect (slot : Slot) : Commutes φ (Token.relocate φ) (expect slot) (expect slot) := by
  apply commutes_bind (commutes_token _ rfl)
  intro t
  rw [Token.kind_relocate]
  split
  · exact commutes_pure t
  · exact commutes_fail t.place (.mismatch slot t)

theorem splitBody_relocate (φ : Option Location → Option Location) (depth : Nat) (tokens : List Token) :
    splitBody depth (tokens.map (Token.relocate φ)) =
      (splitBody depth tokens).map fun (body, rest) => (body.map (Token.relocate φ), rest.map (Token.relocate φ)) := by
  induction tokens generalizing depth with
  | nil => rfl
  | cons t tokens ih =>
    rw [List.map_cons]
    unfold splitBody
    rw [Token.kind_relocate]
    split
    · rfl
    all_goals
      rw [ih, Option.map_map, Option.map_map]
      rfl

theorem commutes_body : Commutes φ (List.map (Token.relocate φ)) body body := by
  intro ending tokens
  rw [body, body, splitBody_relocate]
  cases splitBody 0 tokens with
  | none => rfl
  | some split => rfl

theorem literal_relocate (t : Token) : literal (t.relocate φ) = (literal t).relocate φ := by
  rw [literal, literal, Node.relocate]
  rfl

theorem commutes_importing (start : Token) :
    Commutes φ (Statement.relocate φ) (importing start) (importing (start.relocate φ)) := by
  apply commutes_bind (commutes_expect _)
  intro name
  apply commutes_bind (commutes_expect _)
  intro _
  apply commutes_bind (commutes_expect _)
  intro module
  apply commutes_bind (commutes_expect _)
  intro _
  exact commutes_pure _

theorem commutes_function (start : Token) :
    Commutes φ (Statement.relocate φ) (function start) (function (start.relocate φ)) := by
  unfold function
  rw [Token.value_relocate]
  split
  · exact commutes_fail start.place (.unknownType start.value)
  · apply commutes_bind (commutes_expect _)
    intro _
    apply commutes_bind (commutes_expect _)
    intro name
    apply commutes_bind (commutes_expect _)
    intro _
    apply commutes_bind (commutes_expect _)
    intro _
    apply commutes_bind (commutes_expect _)
    intro _
    apply commutes_bind commutes_body
    intro tokens
    exact commutes_pure _

theorem commutes_noExtra (name : Bytes) : Commutes φ id (noExtra name) (noExtra name) := by
  intro ending tokens
  cases tokens with
  | nil => rfl
  | cons t rest =>
    have hx : isExtra (t.relocate φ) = isExtra t := rfl
    rw [List.map_cons, noExtra, noExtra, hx]
    split <;> rfl

theorem commutes_arguments (name : Bytes) :
    Commutes φ (Node.relocateBlock φ) (arguments name) (arguments name) := by
  apply commutes_bind (commutes_token _ rfl)
  intro t
  rw [Token.kind_relocate, Token.isLiteral_relocate]
  split
  · exact commutes_pure _
  · split
    · apply commutes_bind (commutes_noExtra name)
      intro _
      apply commutes_bind (commutes_expect _)
      intro _
      rw [literal_relocate]
      exact commutes_pure (some [literal t])
    · exact commutes_fail t.place (.badArgument t)

theorem commutes_call (start : Token) :
    Commutes φ (Statement.relocate φ) (call start) (call (start.relocate φ)) := by
  apply commutes_bind (commutes_expect _)
  intro _
  apply commutes_bind (commutes_arguments _)
  intro given
  apply commutes_bind (commutes_expect _)
  intro _
  exact commutes_pure _

theorem commutes_literalStatement (start : Token) :
    Commutes φ (Statement.relocate φ) (literalStatement start) (literalStatement (start.relocate φ)) := by
  intro ending tokens
  cases tokens with
  | nil => rfl
  | cons t rest =>
    rw [List.map_cons, literalStatement, literalStatement, Token.kind_relocate, literal_relocate]
    split <;> rfl

theorem commutes_statement (start : Token) :
    Commutes φ (Statement.relocate φ) (statement start) (statement (start.relocate φ)) := by
  unfold statement
  rw [Token.kind_relocate]
  split
  · exact commutes_importing start
  · exact commutes_function start
  · exact commutes_call start
  · exact commutes_literalStatement start
  · exact commutes_literalStatement start
  · exact commutes_fail start.place (.unexpected start)

/-! ## Runs -/

/-- One statement of a run, without the proof that tokens are taken. -/
theorem program_cons (ending : Option Location) (start : Token) (tokens : List Token) :
    program ending (start :: tokens) =
      match statement start ending tokens with
      | .failed e left => .failed e left
      | .done (.node n) left => (program ending left).map (n :: ·)
      | .done (.function name type place body) left =>
        match program (lastPlace body) body with
        | .failed e _ => .failed e left
        | .done nodes _ =>
          (program ending left).map (.function name none (Node.Block.ofList nodes) type place :: ·) := by
  rw [program]
  split
  · next hs => rw [hs]
  · next hs => rw [hs]
  · next name type place body left hs =>
    cases hb : program (lastPlace body) body with
    | done nodes rest => simp only [hs, hb]
    | failed e rest => simp only [hs, hb]

theorem map_relocate (n : Node) (o : Outcome (List Node)) :
    (o.relocate φ (Node.relocateAll φ)).map (n.relocate φ :: ·) =
      (o.map (n :: ·)).relocate φ (Node.relocateAll φ) := by
  cases o <;> rfl

theorem lastPlace_relocate (tokens : List Token) (h : tokens ≠ []) :
    lastPlace (tokens.map (Token.relocate φ)) = φ (lastPlace tokens) := by
  obtain ⟨t, ht⟩ := Option.isSome_iff_exists.1 (List.getLast?_isSome.2 h)
  rw [lastPlace, lastPlace, List.getLast?_map, ht]
  rfl

/-- A run over moved tokens is the moved run. To which place an early end is put down does not matter if there are no
tokens at all. -/
theorem program_relocate {ending ending' : Option Location} {tokens : List Token}
    (h : tokens ≠ [] → ending' = φ ending) :
    program ending' (tokens.map (Token.relocate φ)) = (program ending tokens).relocate φ (Node.relocateAll φ) := by
  fun_induction program ending tokens generalizing ending' with
  | case1 =>
    rw [List.map_nil, program]
    rfl
  | case2 ending start tokens e left hs =>
    obtain rfl := h (List.cons_ne_nil _ _)
    rw [List.map_cons, program_cons, commutes_statement start ending tokens, hs]
    rfl
  | case3 ending start tokens n left hs ih =>
    obtain rfl := h (List.cons_ne_nil _ _)
    rw [List.map_cons, program_cons, commutes_statement start ending tokens, hs, ← map_relocate, ← ih fun _ => rfl]
    rfl
  | case4 ending start tokens name type place body left hs e rest hb ihb =>
    obtain rfl := h (List.cons_ne_nil _ _)
    rw [List.map_cons, program_cons, commutes_statement start ending tokens, hs]
    simp only [Outcome.relocate, Statement.relocate]
    rw [ihb (lastPlace_relocate body), hb]
    rfl
  | case5 ending start tokens name type place body left hs nodes rest hb ihb ih =>
    obtain rfl := h (List.cons_ne_nil _ _)
    rw [List.map_cons, program_cons, commutes_statement start ending tokens, hs, ← map_relocate, ← ih fun _ => rfl]
    simp only [Outcome.relocate, Statement.relocate]
    rw [ihb (lastPlace_relocate body), hb]
    simp only [Outcome.relocate, Node.relocate, Node.relocateBlock_ofList]
    rfl

end Parser

/-- **The parser never looks at places.** -/
theorem parse_relocate (φ : Option Location → Option Location) (file : Bytes) (tokens : List Token) :
    parse file (tokens.map (Token.relocate φ)) =
      ((parse file tokens).map (Tree.relocate φ)).mapError (ParseError.relocate φ) := by
  rw [parse, parse, Parser.run, Parser.run, Parser.program_relocate (Parser.lastPlace_relocate tokens)]
  cases Parser.program (Parser.lastPlace tokens) tokens with
  | done nodes rest =>
    simp only [Outcome.relocate, Outcome.tree, ← Node.relocateBlock_ofList]
    rfl
  | failed e rest => rfl

/-! ## Places that are passed on -/

/-- A function that moves all places but some. -/
theorem exists_moving (places : List (Option Location)) :
    ∃ φ : Option Location → Option Location, ∀ l, φ l = l ↔ l ∈ places := by
  refine ⟨fun l => if l ∈ places then l else if l = none then some ⟨[], 0, 0, 0⟩ else none, ?_⟩
  intro l
  by_cases hl : l ∈ places
  · simp [hl]
  · cases l with
    | none => simp [hl]
    | some l => simp [hl]

theorem map_relocate_eq_self {φ : Option Location → Option Location} {tokens : List Token}
    (h : ∀ l ∈ tokens.map Token.place, φ l = l) : tokens.map (Token.relocate φ) = tokens := by
  have hid : tokens.map (Token.relocate φ) = tokens.map id := by
    apply List.map_congr_left
    intro t ht
    rw [Token.relocate, h t.place (List.mem_map_of_mem ht), id]
  rw [hid, List.map_id]

/-- The place of an error is the place of a token: no place is made up. -/
theorem place_of_parse_error {file : Bytes} {tokens : List Token} {e : ParseError}
    (h : parse file tokens = .error e) : e.place ∈ tokens.map Token.place := by
  obtain ⟨φ, hφ⟩ := exists_moving (tokens.map Token.place)
  have hsame := parse_relocate φ file tokens
  rw [map_relocate_eq_self fun l hl => (hφ l).2 hl, h] at hsame
  apply (hφ e.place).1
  exact (congrArg ParseError.place (Except.error.inj hsame)).symm

end CallLang
