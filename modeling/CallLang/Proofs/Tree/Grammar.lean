import CallLang.Proofs.Tree.Braces

/-!
# The grammar of programs

A program is a list of statements, and there are four productions of a statement: `import name from module ;`,
`void fn name ( ) { program }`, `name ( [literal] ) ;` and `literal ;`. A literal is a number or a string.

`Derivation` is a derivation tree of a statement: it holds the tokens of its production, each with a proof that it is of
the kind that stands there. `tokens` is the list that it derives and `node` is the tree that it stands for.

- `parse_derives`: the parser accepts just the lists that are derived, each of them has one derivation, and the tree of
  the derivation is what the parser returns;
- soundness (`derivation_of_program`) is by induction on the run of the parser: what one statement has read is inverted
  (`statement_eq_done`), and a body that was split off is a run of its own;
- completeness (`program_allTokens`) is by induction on derivations: what is derived is balanced (`balanced_allTokens`),
  so the brace that ends the body is the matching one;
- a derivation is determined by its tokens whatever follows them (`eq_of_tokens_append`), since the first token tells
  the production and a program ends where no statement can start.
-/

namespace CallLang

/-! ## Derivations -/

/-- A token of a given kind. -/
abbrev Terminal (kind : Kind) := { t : Token // t.kind = kind }

/-- The name of the type that functions return. -/
abbrev VoidWord := { t : Token // t.kind = .typeName ∧ t.value = ascii "void" }

/-- A literal of the grammar: a number or a string. -/
inductive LiteralToken where
  | number (t : Terminal .number)
  | string (t : Terminal .string)

namespace LiteralToken

/-- The token of a literal. -/
def token : LiteralToken → Token
  | .number t => t.1
  | .string t => t.1

/-- The node of a literal. -/
def node : LiteralToken → Node
  | .number t => .literal ⟨.number, t.1.value⟩ t.1.place
  | .string t => .literal ⟨.string, t.1.value⟩ t.1.place

theorem isLiteral_token (v : LiteralToken) : v.token.isLiteral = true := by
  cases v with
  | number t => simp [token, Token.isLiteral, t.2]
  | string t => simp [token, Token.isLiteral, t.2]

theorem token_ne_closeParen (v : LiteralToken) : v.token.kind ≠ .closeParen := by
  cases v with
  | number t => simp [token, t.2]
  | string t => simp [token, t.2]

@[simp] theorem literal_token (v : LiteralToken) : Parser.literal v.token = v.node := by
  cases v with
  | number t => simp [token, Parser.literal, node, t.2]
  | string t => simp [token, Parser.literal, node, t.2]

theorem no_brace (v : LiteralToken) : v.token.kind ≠ .openBrace ∧ v.token.kind ≠ .closeBrace := by
  cases v with
  | number t => simp [token, t.2]
  | string t => simp [token, t.2]

theorem eq_of_token {v v' : LiteralToken} (h : v.token = v'.token) : v = v' := by
  cases v with
  | number t =>
    cases v' with
    | number t' => rw [Subtype.ext h]
    | string t' => exact absurd (t.2.symm.trans ((congrArg Token.kind h).trans t'.2)) (by simp)
  | string t =>
    cases v' with
    | number t' => exact absurd (t.2.symm.trans ((congrArg Token.kind h).trans t'.2)) (by simp)
    | string t' => rw [Subtype.ext h]

/-- What counts as a literal is one of the grammar. -/
theorem exists_token_eq {t : Token} (h : t.isLiteral = true) : ∃ v : LiteralToken, v.token = t := by
  simp only [Token.isLiteral, Bool.or_eq_true, beq_iff_eq] at h
  rcases h with h | h
  · exact ⟨.number ⟨t, h⟩, rfl⟩
  · exact ⟨.string ⟨t, h⟩, rfl⟩

end LiteralToken

/-- A derivation of a statement. A derivation of a program is a list of these. -/
inductive Derivation where
  | importing (start : Terminal .importWord) (name : Terminal .identifier) (word : Terminal .fromWord)
      (module : Terminal .identifier) (stop : Terminal .semicolon)
  | function (type : VoidWord) (word : Terminal .fnWord) (name : Terminal .identifier)
      (opening : Terminal .openParen) (closing : Terminal .closeParen) (before : Terminal .openBrace)
      (body : List Derivation) (after : Terminal .closeBrace)
  | call (name : Terminal .identifier) (opening : Terminal .openParen) (argument : Option LiteralToken)
      (closing : Terminal .closeParen) (stop : Terminal .semicolon)
  | literal (value : LiteralToken) (stop : Terminal .semicolon)

namespace Derivation

mutual

/-- The tokens that a statement derives. -/
def tokens : Derivation → List Token
  | .importing start name word module stop => [start.1, name.1, word.1, module.1, stop.1]
  | .function type word name opening closing before body after =>
    [type.1, word.1, name.1, opening.1, closing.1, before.1] ++ (allTokens body ++ [after.1])
  | .call name opening argument closing stop =>
    [name.1, opening.1] ++ (argument.map LiteralToken.token).toList ++ [closing.1, stop.1]
  | .literal value stop => [value.token, stop.1]

/-- The tokens that a program derives. -/
def allTokens : List Derivation → List Token
  | [] => []
  | d :: rest => d.tokens ++ allTokens rest

end

mutual

/-- The node of a statement: the values of its names and literals, and the place of its first token. -/
def node : Derivation → Node
  | .importing start name _ module _ => .importing module.1.value name.1.value start.1.place
  | .function type _ name _ _ _ body _ =>
    .function name.1.value none (Node.Block.ofList (nodes body)) .void type.1.place
  | .call name _ argument _ _ => .call name.1.value (argument.map fun v => [v.node]) name.1.place
  | .literal value _ => value.node

/-- The nodes of a program, in order. -/
def nodes : List Derivation → List Node
  | [] => []
  | d :: rest => d.node :: nodes rest

end

/-- The tree of a program. -/
def tree (file : Bytes) (ds : List Derivation) : Tree :=
  ⟨file, Node.Block.ofList (nodes ds)⟩

end Derivation

/-! ## Readers that succeed -/

namespace Parser

section Readers

variable {α β : Type} {ending : Option Location} {tokens rest : List Token}

theorem pure_eq_done {a b : α} : (pure a : Parser α) ending tokens = .done b rest ↔ a = b ∧ tokens = rest := by
  simp [pure]

theorem bind_eq_done {p : Parser α} {f : α → Parser β} {b : β} :
    (p >>= f) ending tokens = .done b rest ↔ ∃ a mid, p ending tokens = .done a mid ∧ f a ending mid = .done b rest := by
  simp only [bind]
  cases p ending tokens with
  | done a mid => simp [and_assoc]
  | failed e mid => simp

theorem not_fail_eq_done {place : Option Location} {reason : Reason} {a : α} :
    (fail place reason : Parser α) ending tokens ≠ .done a rest := by
  simp [fail]

theorem token_eq_done {atEnd : Reason} {t : Token} : token atEnd ending tokens = .done t rest ↔ tokens = t :: rest := by
  cases tokens <;> simp [token]

theorem expect_eq_done {slot : Slot} {t : Token} :
    expect slot ending tokens = .done t rest ↔ tokens = t :: rest ∧ t.kind = slot.kind := by
  simp only [expect, bind_eq_done, token_eq_done]
  constructor
  · rintro ⟨a, mid, rfl, h⟩
    split at h
    · next hk =>
      obtain ⟨rfl, rfl⟩ := pure_eq_done.1 h
      exact ⟨rfl, hk⟩
    · exact absurd h not_fail_eq_done
  · rintro ⟨rfl, hk⟩
    exact ⟨t, rest, rfl, by rw [if_pos hk]; rfl⟩

theorem noExtra_eq_done {name : Bytes} {u : Unit} :
    noExtra name ending tokens = .done u rest ↔ tokens = rest ∧ ∀ t ∈ tokens.head?, isExtra t = false := by
  cases tokens with
  | nil => simp [noExtra]
  | cons t tokens =>
    simp only [noExtra, List.head?_cons, Option.mem_some_iff, forall_eq']
    split <;> simp_all

/-- What is read of the arguments of a call: the closing parenthesis alone, or one literal in front of it. -/
theorem arguments_eq_done {name : Bytes} {given : Node.Block} :
    arguments name ending tokens = .done given rest ↔
      ∃ (argument : Option LiteralToken) (closing : Terminal .closeParen),
        tokens = (argument.map LiteralToken.token).toList ++ closing.1 :: rest ∧
          given = argument.map fun v => [v.node] := by
  simp only [arguments, bind_eq_done, token_eq_done]
  constructor
  · rintro ⟨t, mid, rfl, h⟩
    split at h
    · next hk =>
      obtain ⟨rfl, rfl⟩ := pure_eq_done.1 h
      exact ⟨none, ⟨t, hk⟩, rfl, rfl⟩
    · split at h
      · next hl =>
        simp only [bind_eq_done, noExtra_eq_done, expect_eq_done, pure_eq_done] at h
        obtain ⟨_, _, ⟨rfl, _⟩, closing, _, ⟨rfl, hc⟩, rfl, rfl⟩ := h
        obtain ⟨v, rfl⟩ := LiteralToken.exists_token_eq hl
        exact ⟨some v, ⟨closing, hc⟩, rfl, by rw [v.literal_token]; rfl⟩
      · exact absurd h not_fail_eq_done
  · rintro ⟨argument, ⟨closing, hc⟩, rfl, rfl⟩
    cases argument with
    | none => exact ⟨closing, rest, rfl, by rw [if_pos hc]; rfl⟩
    | some v =>
      refine ⟨v.token, closing :: rest, rfl, ?_⟩
      rw [if_neg v.token_ne_closeParen, if_pos v.isLiteral_token]
      simp only [bind_eq_done, noExtra_eq_done, expect_eq_done, pure_eq_done]
      refine ⟨(), _, ⟨rfl, ?_⟩, closing, _, ⟨rfl, hc⟩, by simp, rfl⟩
      simp [isExtra, Token.isLiteral, hc]

theorem statement_literal (v : LiteralToken) : statement v.token = literalStatement v.token := by
  cases v with
  | number t => simp [statement, LiteralToken.token, t.2]
  | string t => simp [statement, LiteralToken.token, t.2]

theorem importing_eq_done {start : Token} {s : Statement} :
    importing start ending tokens = .done s rest ↔
      ∃ (name : Terminal .identifier) (word : Terminal .fromWord) (module : Terminal .identifier)
        (stop : Terminal .semicolon), tokens = [name.1, word.1, module.1, stop.1] ++ rest ∧
          s = .node (.importing module.1.value name.1.value start.place) := by
  simp only [importing, bind_eq_done, expect_eq_done, pure_eq_done]
  constructor
  · rintro ⟨name, _, ⟨rfl, h₁⟩, word, _, ⟨rfl, h₂⟩, module, _, ⟨rfl, h₃⟩, stop, _, ⟨rfl, h₄⟩, rfl, rfl⟩
    exact ⟨⟨name, h₁⟩, ⟨word, h₂⟩, ⟨module, h₃⟩, ⟨stop, h₄⟩, rfl, rfl⟩
  · rintro ⟨⟨name, h₁⟩, ⟨word, h₂⟩, ⟨module, h₃⟩, ⟨stop, h₄⟩, rfl, rfl⟩
    exact ⟨name, _, ⟨rfl, h₁⟩, word, _, ⟨rfl, h₂⟩, module, _, ⟨rfl, h₃⟩, stop, _, ⟨rfl, h₄⟩, rfl, rfl⟩

theorem call_eq_done {start : Token} {s : Statement} :
    call start ending tokens = .done s rest ↔
      ∃ (opening : Terminal .openParen) (argument : Option LiteralToken) (closing : Terminal .closeParen)
        (stop : Terminal .semicolon),
        tokens = opening.1 :: ((argument.map LiteralToken.token).toList ++ closing.1 :: stop.1 :: rest) ∧
          s = .node (.call start.value (argument.map fun v => [v.node]) start.place) := by
  simp only [call, bind_eq_done, expect_eq_done, arguments_eq_done, pure_eq_done]
  constructor
  · rintro ⟨opening, _, ⟨rfl, h₁⟩, _, _, ⟨argument, closing, rfl, rfl⟩, stop, _, ⟨rfl, h₂⟩, rfl, rfl⟩
    exact ⟨⟨opening, h₁⟩, argument, closing, ⟨stop, h₂⟩, rfl, rfl⟩
  · rintro ⟨⟨opening, h₁⟩, argument, closing, ⟨stop, h₂⟩, rfl, rfl⟩
    exact ⟨opening, _, ⟨rfl, h₁⟩, _, _, ⟨argument, closing, rfl, rfl⟩, stop, _, ⟨rfl, h₂⟩, rfl, rfl⟩

theorem literalStatement_eq_done {start : Token} {s : Statement} :
    literalStatement start ending tokens = .done s rest ↔
      ∃ stop : Terminal .semicolon, tokens = stop.1 :: rest ∧ s = .node (literal start) := by
  cases tokens with
  | nil => simp [literalStatement]
  | cons t tokens =>
    simp only [literalStatement]
    constructor
    · intro h
      split at h
      · next hk => cases h; exact ⟨⟨t, hk⟩, rfl, rfl⟩
      · cases h
    · rintro ⟨⟨stop, hk⟩, he, rfl⟩
      cases he
      rw [if_pos hk]

/-- What is read of a function: its head, and the tokens up to the matching brace, which are put aside. -/
theorem function_eq_done {start : Token} {s : Statement} :
    function start ending tokens = .done s rest ↔
      start.value = ascii "void" ∧
      ∃ (word : Terminal .fnWord) (name : Terminal .identifier) (opening : Terminal .openParen)
        (closing : Terminal .closeParen) (before : Terminal .openBrace) (inner : List Token)
        (after : Terminal .closeBrace), Balanced inner ∧
          tokens = [word.1, name.1, opening.1, closing.1, before.1] ++ (inner ++ after.1 :: rest) ∧
          s = .function name.1.value .void start.place inner := by
  unfold function ReturnType.ofName?
  by_cases hv : start.value = ascii "void"
  · simp only [hv, if_true, true_and, bind_eq_done, expect_eq_done, body_eq_done, splitBody_eq_some_iff, pure_eq_done]
    constructor
    · rintro ⟨word, _, ⟨rfl, h₁⟩, name, _, ⟨rfl, h₂⟩, opening, _, ⟨rfl, h₃⟩, closing, _, ⟨rfl, h₄⟩, before, _,
        ⟨rfl, h₅⟩, inner, _, ⟨after, h₆, rfl, hb⟩, rfl, rfl⟩
      exact ⟨⟨word, h₁⟩, ⟨name, h₂⟩, ⟨opening, h₃⟩, ⟨closing, h₄⟩, ⟨before, h₅⟩, inner, ⟨after, h₆⟩, hb, rfl, rfl⟩
    · rintro ⟨⟨word, h₁⟩, ⟨name, h₂⟩, ⟨opening, h₃⟩, ⟨closing, h₄⟩, ⟨before, h₅⟩, inner, ⟨after, h₆⟩, hb, rfl, rfl⟩
      exact ⟨word, _, ⟨rfl, h₁⟩, name, _, ⟨rfl, h₂⟩, opening, _, ⟨rfl, h₃⟩, closing, _, ⟨rfl, h₄⟩, before, _,
        ⟨rfl, h₅⟩, inner, _, ⟨after, h₆, rfl, hb⟩, rfl, rfl⟩
  · simp [hv, not_fail_eq_done]

/-! ## What the parser accepts is derived -/

/-- What one statement has read: the tokens of a production without a body, or a head, a body and its brace. -/
theorem statement_eq_done {start : Token} {s : Statement} (h : statement start ending tokens = .done s rest) :
    (∃ d : Derivation, start :: tokens = d.tokens ++ rest ∧ s = .node d.node) ∨
    ∃ (type : VoidWord) (word : Terminal .fnWord) (name : Terminal .identifier) (opening : Terminal .openParen)
      (closing : Terminal .closeParen) (before : Terminal .openBrace) (inner : List Token)
      (after : Terminal .closeBrace),
      start :: tokens = [type.1, word.1, name.1, opening.1, closing.1, before.1] ++ (inner ++ after.1 :: rest) ∧
        s = .function name.1.value .void type.1.place inner := by
  cases hk : start.kind <;> simp only [statement, hk] at h
  case importWord =>
    obtain ⟨name, word, module, stop, rfl, rfl⟩ := importing_eq_done.1 h
    exact .inl ⟨.importing ⟨start, hk⟩ name word module stop, rfl, rfl⟩
  case typeName =>
    obtain ⟨hv, word, name, opening, closing, before, inner, after, _, rfl, rfl⟩ := function_eq_done.1 h
    exact .inr ⟨⟨start, hk, hv⟩, word, name, opening, closing, before, inner, after, rfl, rfl⟩
  case identifier =>
    obtain ⟨opening, argument, closing, stop, rfl, rfl⟩ := call_eq_done.1 h
    exact .inl ⟨.call ⟨start, hk⟩ opening argument closing stop, by simp [Derivation.tokens], rfl⟩
  case number =>
    obtain ⟨stop, rfl, rfl⟩ := literalStatement_eq_done.1 h
    exact .inl ⟨.literal (.number ⟨start, hk⟩) stop, rfl, congrArg _ (LiteralToken.literal_token (.number ⟨start, hk⟩))⟩
  case string =>
    obtain ⟨stop, rfl, rfl⟩ := literalStatement_eq_done.1 h
    exact .inl ⟨.literal (.string ⟨start, hk⟩) stop, rfl, congrArg _ (LiteralToken.literal_token (.string ⟨start, hk⟩))⟩
  all_goals exact absurd h not_fail_eq_done

theorem map_eq_done {f : α → β} {o : Outcome α} {b : β} :
    o.map f = .done b rest ↔ ∃ a, o = .done a rest ∧ f a = b := by
  cases o with
  | done a left => simp [Outcome.map, and_comm, and_left_comm]
  | failed e left => simp [Outcome.map]

/-- A run that succeeds has read all its tokens, and they are derived by statements with the nodes that it gives. -/
theorem derivation_of_program {nodes : List Node} (h : program ending tokens = .done nodes rest) :
    ∃ ds : List Derivation, Derivation.allTokens ds = tokens ∧ Derivation.nodes ds = nodes := by
  fun_induction program ending tokens generalizing nodes rest with
  | case1 => cases h; exact ⟨[], rfl, rfl⟩
  | case2 => cases h
  | case3 ending start tokens n left hs ih =>
    obtain ⟨later, hl, rfl⟩ := map_eq_done.1 h
    obtain ⟨ds, rfl, rfl⟩ := ih hl
    rcases statement_eq_done hs with ⟨d, he, hn⟩ | ⟨_, _, _, _, _, _, _, _, _, hn⟩
    · cases hn
      exact ⟨d :: ds, he.symm, rfl⟩
    · cases hn
  | case4 => cases h
  | case5 ending start tokens name type place inner left hs body _ hb ihb ih =>
    obtain ⟨later, hl, rfl⟩ := map_eq_done.1 h
    obtain ⟨ds, rfl, rfl⟩ := ih hl
    obtain ⟨ds', rfl, rfl⟩ := ihb hb
    rcases statement_eq_done hs with ⟨_, _, hn⟩ | ⟨type, word, name, opening, closing, before, _, after, he, hn⟩
    · cases hn
    · cases hn
      exact ⟨.function type word name opening closing before ds' after :: ds,
        by simp [Derivation.allTokens, Derivation.tokens, he], rfl⟩

end Readers

/-! ## What is derived is balanced -/

mutual

/-- The tokens of a statement are balanced. -/
theorem balanced_tokens : (d : Derivation) → Balanced d.tokens
  | .importing start name word module stop => by
    refine .cons (.cons (.cons (.cons (.cons balanced_nil ?_ ?_) ?_ ?_) ?_ ?_) ?_ ?_) ?_ ?_ <;>
      simp [start.2, name.2, word.2, module.2, stop.2]
  | .function type word name opening closing before body after => by
    refine .cons (.cons (.cons (.cons (.cons ((balanced_allTokens body).block before.2 after.2) ?_ ?_) ?_ ?_) ?_ ?_)
      ?_ ?_) ?_ ?_ <;> simp [type.2.1, word.2, name.2, opening.2, closing.2]
  | .call name opening none closing stop => by
    refine .cons (.cons (.cons (.cons balanced_nil ?_ ?_) ?_ ?_) ?_ ?_) ?_ ?_ <;>
      simp [name.2, opening.2, closing.2, stop.2]
  | .call name opening (some v) closing stop => by
    have hv := v.no_brace
    refine .cons (.cons (.cons (.cons (.cons balanced_nil ?_ ?_) ?_ ?_) hv.1 hv.2) ?_ ?_) ?_ ?_ <;>
      simp [name.2, opening.2, closing.2, stop.2]
  | .literal v stop => by
    have hv := v.no_brace
    refine .cons (.cons balanced_nil ?_ ?_) hv.1 hv.2 <;> simp [stop.2]

/-- The tokens of a program are balanced. -/
theorem balanced_allTokens : (ds : List Derivation) → Balanced (Derivation.allTokens ds)
  | [] => balanced_nil
  | d :: rest => (balanced_tokens d).append (balanced_allTokens rest)

end

/-! ## What is derived the parser accepts -/

section Completeness

variable {ending : Option Location}

/-- A statement that is no function, in front of more tokens. -/
theorem program_node {start : Token} {tokens rest : List Token} {n : Node}
    (h : statement start ending tokens = .done (.node n) rest) :
    program ending (start :: tokens) = (program ending rest).map (n :: ·) := by
  rw [program]
  split <;> simp_all

/-- A function, whose body is a program, in front of more tokens. -/
theorem program_function {start : Token} {tokens inner rest : List Token} {name : Bytes} {type : ReturnType}
    {place : Option Location} {nodes : List Node}
    (h : statement start ending tokens = .done (.function name type place inner) rest)
    (hb : program (lastPlace inner) inner = .done nodes []) :
    program ending (start :: tokens) =
      (program ending rest).map (.function name none (Node.Block.ofList nodes) type place :: ·) := by
  rw [program]
  split <;> simp_all

mutual

/-- The parser reads a derived statement as its node and goes on behind it. -/
theorem program_tokens (d : Derivation) (ending : Option Location) (rest : List Token) :
    program ending (d.tokens ++ rest) = (program ending rest).map (d.node :: ·) :=
  match d with
  | .importing start name word module stop => by
    refine program_node ?_
    simp only [statement, start.2]
    exact importing_eq_done.2 ⟨name, word, module, stop, rfl, rfl⟩
  | .function type word name opening closing before body after => by
    have hb := program_allTokens body (lastPlace (Derivation.allTokens body))
    simp only [Derivation.tokens, List.append_assoc, List.cons_append, List.nil_append]
    refine program_function ?_ hb
    simp only [statement, type.2.1]
    exact function_eq_done.2 ⟨type.2.2, word, name, opening, closing, before, _, after, balanced_allTokens body,
      rfl, rfl⟩
  | .call name opening argument closing stop => by
    simp only [Derivation.tokens, List.append_assoc, List.cons_append, List.nil_append]
    refine program_node ?_
    simp only [statement, name.2]
    exact call_eq_done.2 ⟨opening, argument, closing, stop, rfl, rfl⟩
  | .literal v stop => by
    refine program_node ?_
    rw [statement_literal]
    exact literalStatement_eq_done.2 ⟨stop, rfl, by rw [v.literal_token]; rfl⟩

/-- The parser reads a derived program as its nodes. -/
theorem program_allTokens (ds : List Derivation) (ending : Option Location) :
    program ending (Derivation.allTokens ds) = .done (Derivation.nodes ds) [] :=
  match ds with
  | [] => by rw [Derivation.allTokens, program]; rfl
  | d :: rest => by
    rw [Derivation.allTokens, program_tokens d, program_allTokens rest]
    rfl

end

end Completeness

end Parser

/-! ## Tokens have one derivation -/

namespace Derivation

/-- The kinds of token that start a statement of the same production. -/
def first : Derivation → List Kind
  | .importing .. => [.importWord]
  | .function .. => [.typeName]
  | .call .. => [.identifier]
  | .literal .. => [.number, .string]

theorem tokens_eq_cons (d : Derivation) : ∃ t rest, d.tokens = t :: rest ∧ t.kind ∈ d.first := by
  cases d with
  | importing start _ _ _ _ => exact ⟨start.1, _, rfl, by simp [first, start.2]⟩
  | function type _ _ _ _ _ _ _ => exact ⟨type.1, _, rfl, by simp [first, type.2.1]⟩
  | call name _ _ _ _ => exact ⟨name.1, _, rfl, by simp [first, name.2]⟩
  | literal v _ =>
    cases v with
    | number t => exact ⟨t.1, _, rfl, by simp [first, t.2]⟩
    | string t => exact ⟨t.1, _, rfl, by simp [first, t.2]⟩

/-- Statements that start with the same token are of the same production. -/
theorem exists_mem_first {d d' : Derivation} {rest rest' : List Token} (h : d.tokens ++ rest = d'.tokens ++ rest') :
    ∃ kind, kind ∈ d.first ∧ kind ∈ d'.first := by
  obtain ⟨t, tail, ht, hk⟩ := d.tokens_eq_cons
  obtain ⟨t', tail', ht', hk'⟩ := d'.tokens_eq_cons
  rw [ht, ht'] at h
  obtain ⟨rfl, _⟩ := List.cons.inj h
  exact ⟨t.kind, hk, hk'⟩

/-- The tokens end here, or a block does. -/
def Ends (rest : List Token) : Prop :=
  ∀ t ∈ rest.head?, t.kind = .closeBrace

/-- No statement starts where a program ends. -/
theorem not_ends_tokens (d : Derivation) (rest : List Token) : ¬ Ends (d.tokens ++ rest) := by
  obtain ⟨t, tail, ht, hk⟩ := d.tokens_eq_cons
  intro h
  have hc := h t (by simp [ht])
  cases d <;> simp [first, hc] at hk

/-- The argument of a call is told from the parenthesis behind it. -/
theorem eq_of_argument {v v' : Option LiteralToken} {c c' : Token} {rest rest' : List Token}
    (h : (v.map LiteralToken.token).toList ++ c :: rest = (v'.map LiteralToken.token).toList ++ c' :: rest')
    (hc : c.kind = .closeParen) (hc' : c'.kind = .closeParen) : v = v' ∧ c :: rest = c' :: rest' := by
  cases v with
  | none =>
    cases v' with
    | none => exact ⟨rfl, h⟩
    | some v' => cases h; exact absurd hc v'.token_ne_closeParen
  | some v =>
    cases v' with
    | none => cases h; exact absurd hc' v.token_ne_closeParen
    | some v' =>
      simp only [Option.map_some, Option.toList_some, List.cons_append, List.nil_append, List.cons.injEq] at h
      rw [LiteralToken.eq_of_token h.1, h.2.1, h.2.2]
      exact ⟨rfl, rfl⟩

mutual

/-- A statement is determined by its tokens, whatever follows them. -/
theorem eq_of_tokens_append (d d' : Derivation) {rest rest' : List Token}
    (h : d.tokens ++ rest = d'.tokens ++ rest') : d = d' ∧ rest = rest' :=
  match d with
  | .importing start name word module stop => by
    obtain ⟨kind, hk, hk'⟩ := exists_mem_first h
    cases d' with
    | importing start' name' word' module' stop' =>
      simp only [tokens, List.cons_append, List.nil_append, List.cons.injEq, ← Subtype.ext_iff] at h
      obtain ⟨rfl, rfl, rfl, rfl, rfl, rfl⟩ := h
      exact ⟨rfl, rfl⟩
    | _ => simp_all [first]
  | .function type word name opening closing before body after => by
    obtain ⟨kind, hk, hk'⟩ := exists_mem_first h
    cases d' with
    | function type' word' name' opening' closing' before' body' after' =>
      simp only [tokens, List.append_assoc, List.cons_append, List.nil_append, List.cons.injEq, ← Subtype.ext_iff] at h
      obtain ⟨rfl, rfl, rfl, rfl, rfl, rfl, hb⟩ := h
      obtain ⟨rfl, hr⟩ := eq_of_allTokens_append body body' hb (by simp [Ends, after.2]) (by simp [Ends, after'.2])
      simp only [List.cons.injEq, ← Subtype.ext_iff] at hr
      obtain ⟨rfl, rfl⟩ := hr
      exact ⟨rfl, rfl⟩
    | _ => simp_all [first]
  | .call name opening argument closing stop => by
    obtain ⟨kind, hk, hk'⟩ := exists_mem_first h
    cases d' with
    | call name' opening' argument' closing' stop' =>
      simp only [tokens, List.append_assoc, List.cons_append, List.nil_append, List.cons.injEq, ← Subtype.ext_iff] at h
      obtain ⟨rfl, rfl, ha⟩ := h
      obtain ⟨rfl, hr⟩ := eq_of_argument ha closing.2 closing'.2
      simp only [List.cons.injEq, ← Subtype.ext_iff] at hr
      obtain ⟨rfl, rfl, rfl⟩ := hr
      exact ⟨rfl, rfl⟩
    | _ => simp_all [first]
  | .literal v stop => by
    obtain ⟨kind, hk, hk'⟩ := exists_mem_first h
    cases d' with
    | literal v' stop' =>
      simp only [tokens, List.cons_append, List.nil_append, List.cons.injEq, ← Subtype.ext_iff] at h
      obtain ⟨hv, rfl, rfl⟩ := h
      rw [LiteralToken.eq_of_token hv]
      exact ⟨rfl, rfl⟩
    | _ => simp_all [first]

/-- A program is determined by its tokens, up to where it ends. -/
theorem eq_of_allTokens_append (ds ds' : List Derivation) {rest rest' : List Token}
    (h : allTokens ds ++ rest = allTokens ds' ++ rest') (he : Ends rest) (he' : Ends rest') :
    ds = ds' ∧ rest = rest' :=
  match ds, ds' with
  | [], [] => ⟨rfl, h⟩
  | [], d' :: ds' => by
    rw [allTokens, allTokens, List.append_assoc, List.nil_append] at h
    exact absurd (h ▸ he) (not_ends_tokens d' _)
  | d :: ds, [] => by
    rw [allTokens, allTokens, List.append_assoc, List.nil_append] at h
    exact absurd (h ▸ he') (not_ends_tokens d _)
  | d :: ds, d' :: ds' => by
    simp only [allTokens, List.append_assoc] at h
    obtain ⟨rfl, hr⟩ := eq_of_tokens_append d d' h
    obtain ⟨rfl, rfl⟩ := eq_of_allTokens_append ds ds' hr he he'
    exact ⟨rfl, rfl⟩

end

end Derivation

/-! ## The shape of trees -/

/-- A literal that a source can have. -/
def Literal.Given (v : Literal) : Prop :=
  v.kind = .number ∨ v.kind = .string

namespace Node

mutual

/-- A node as the parser builds it: a call has no argument or one literal, and a function has no parameters and returns
nothing. -/
def Shaped : Node → Prop
  | .missing => False
  | .literal value _ => value.Given
  | .importing _ _ _ => True
  | .function _ parameters body type _ => parameters = none ∧ type = .void ∧ ShapedBlock body
  | .call _ arguments _ => arguments = none ∨ ∃ value place, arguments = some [.literal value place] ∧ value.Given

/-- A list as the parser builds it: one without elements is left out. -/
def ShapedBlock : Option (List Node) → Prop
  | none => True
  | some nodes => nodes ≠ [] ∧ AllShaped nodes

/-- Nodes as the parser builds them. -/
def AllShaped : List Node → Prop
  | [] => True
  | n :: rest => n.Shaped ∧ AllShaped rest

end

theorem shapedBlock_ofList {nodes : List Node} (h : AllShaped nodes) : ShapedBlock (Block.ofList nodes) := by
  cases nodes with
  | nil => trivial
  | cons n rest => exact ⟨by simp, h⟩

end Node

namespace LiteralToken

theorem exists_node_eq (v : LiteralToken) : ∃ value place, v.node = .literal value place ∧ value.Given := by
  cases v with
  | number t => exact ⟨_, _, rfl, .inl rfl⟩
  | string t => exact ⟨_, _, rfl, .inr rfl⟩

end LiteralToken

namespace Derivation

mutual

theorem shaped_node : (d : Derivation) → d.node.Shaped
  | .importing .. => trivial
  | .function _ _ _ _ _ _ body _ => ⟨rfl, rfl, Node.shapedBlock_ofList (allShaped_nodes body)⟩
  | .call _ _ none _ _ => .inl rfl
  | .call _ _ (some v) _ _ => by
    obtain ⟨value, place, hv, hg⟩ := v.exists_node_eq
    exact .inr ⟨value, place, by rw [Option.map_some, hv], hg⟩
  | .literal v _ => by
    obtain ⟨value, place, hv, hg⟩ := v.exists_node_eq
    rw [node, hv]
    exact hg

theorem allShaped_nodes : (ds : List Derivation) → Node.AllShaped (nodes ds)
  | [] => trivial
  | d :: rest => ⟨shaped_node d, allShaped_nodes rest⟩

end

end Derivation

/-! ## The parser and the grammar -/

/-- The tree that a check of a parse finds is the one that is parsed. -/
theorem eq_ok_of_mem_toOption {ε α : Type} {r : Except ε α} {a : α} (h : a ∈ r.toOption) : r = .ok a := by
  cases r with
  | error e => cases h
  | ok b =>
    cases h
    rfl

/-- What the parser returns is the tree of a derivation of its tokens. -/
theorem exists_derivation_of_parse {file : Bytes} {tokens : List Token} {tree : Tree}
    (h : parse file tokens = .ok tree) :
    ∃ ds, Derivation.allTokens ds = tokens ∧ tree = Derivation.tree file ds := by
  unfold parse at h
  cases hr : Parser.run tokens with
  | failed e rest => rw [hr] at h; cases h
  | done nodes rest =>
    rw [hr] at h
    cases h
    obtain ⟨ds, hd, rfl⟩ := Parser.derivation_of_program hr
    exact ⟨ds, hd, rfl⟩

/-- The tokens of a derivation are parsed as its tree. -/
theorem parse_allTokens (file : Bytes) (ds : List Derivation) :
    parse file (Derivation.allTokens ds) = .ok (Derivation.tree file ds) := by
  rw [parse, Parser.run, Parser.program_allTokens]
  rfl

theorem allTokens_injective {ds ds' : List Derivation} (h : Derivation.allTokens ds = Derivation.allTokens ds') :
    ds = ds' := by
  have he : Derivation.Ends [] := by simp [Derivation.Ends]
  have hn : Derivation.allTokens ds ++ [] = Derivation.allTokens ds' ++ [] := by rw [h]
  exact (Derivation.eq_of_allTokens_append ds ds' hn he he).1

/-- **The parser accepts its grammar.** It succeeds on the lists of tokens that have a derivation and on no others; a
list has at most one derivation; the tree that is returned is the tree of the derivation, and has its shape. -/
theorem parse_derives (file : Bytes) (tokens : List Token) :
    ((∃ tree, parse file tokens = .ok tree) ↔ ∃ ds, Derivation.allTokens ds = tokens) ∧
    (∀ ds ds', Derivation.allTokens ds = tokens → Derivation.allTokens ds' = tokens → ds = ds') ∧
    (∀ ds, Derivation.allTokens ds = tokens → parse file tokens = .ok (Derivation.tree file ds)) ∧
    ∀ tree, parse file tokens = .ok tree → tree.file = file ∧ Node.ShapedBlock tree.statements := by
  refine ⟨⟨?_, ?_⟩, ?_, ?_, ?_⟩
  · rintro ⟨tree, h⟩
    obtain ⟨ds, hd, _⟩ := exists_derivation_of_parse h
    exact ⟨ds, hd⟩
  · rintro ⟨ds, rfl⟩
    exact ⟨_, parse_allTokens file ds⟩
  · intro ds ds' h h'
    exact allTokens_injective (h.trans h'.symm)
  · rintro ds rfl
    exact parse_allTokens file ds
  · intro tree h
    obtain ⟨ds, _, rfl⟩ := exists_derivation_of_parse h
    exact ⟨rfl, Node.shapedBlock_ofList (Derivation.allShaped_nodes ds)⟩

/-- The tokens of `void fn f() { void fn g() { } h(1); }`. -/
theorem parse_derives_nested :
    let word (kind : Kind) (value : String) : Token := ⟨kind, ascii value, none, 0⟩
    let head (name : String) : List Token :=
      [word .typeName "void", word .fnWord "fn", word .identifier name, word .openParen "(", word .closeParen ")",
        word .openBrace (.singleton '{')]
    let tokens := head "f" ++ (head "g" ++ [word .closeBrace (.singleton '}'), word .identifier "h", word .openParen "(",
      word .number "1", word .closeParen ")", word .semicolon ";", word .closeBrace (.singleton '}')])
    let tree : Tree := ⟨[], some [.function (ascii "f") none (some [.function (ascii "g") none none .void none,
      .call (ascii "h") (some [.literal ⟨.number, ascii "1"⟩ none]) none]) .void none]⟩
    (∃ ds, Derivation.allTokens ds = tokens) ∧ parse [] tokens = .ok tree ∧ Node.ShapedBlock tree.statements := by
  intro word head tokens tree
  let function (name : String) (body : List Derivation) : Derivation :=
    .function ⟨word .typeName "void", rfl, rfl⟩ ⟨word .fnWord "fn", rfl⟩ ⟨word .identifier name, rfl⟩
      ⟨word .openParen "(", rfl⟩ ⟨word .closeParen ")", rfl⟩ ⟨word .openBrace (.singleton '{'), rfl⟩ body
      ⟨word .closeBrace (.singleton '}'), rfl⟩
  let ds : List Derivation := [function "f" [function "g" [], .call ⟨word .identifier "h", rfl⟩
    ⟨word .openParen "(", rfl⟩ (some (.number ⟨word .number "1", rfl⟩)) ⟨word .closeParen ")", rfl⟩
    ⟨word .semicolon ";", rfl⟩]]
  obtain ⟨_, _, hparse, hshape⟩ := parse_derives [] tokens
  have ht : parse [] tokens = .ok tree := hparse ds rfl
  exact ⟨⟨ds, rfl⟩, ht, (hshape tree ht).2⟩

end CallLang
