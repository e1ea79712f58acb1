import CallLang.Proofs.Token.Words
import CallLang.Proofs.Tree.Grammar
import CallLang.Proofs.Tree.Relocation
import CallLang.Program.Lowering

/-!
# Programs that are written and read again

A tree is written as a list of words (`Node.lexemes`), and blanks are put between them. Read as a source, this gives the
tree back, but for its places (`parse_written`).

- `Node.Writable` are the nodes that a source can have: names that are not reserved, numbers that fit, strings of whole
  characters, and the shape that the grammar has;
- every lexeme is one word (`Node.isWord_of_mem`), so the tokens have the kinds and values of the lexemes
  (`tokenize_spread`);
- tokens with these kinds and values have a derivation with the node that was written (`Node.exists_derivation`), by
  induction on nodes with any tokens behind, and the parser finds it.
-/

namespace CallLang

/-! ## Writing -/

/-- The words that no name may be. -/
def reserved : List Bytes :=
  [ascii "import", ascii "from", ascii "fn", ascii "void"]

/-- A name that is not reserved. -/
def IsIdentifier (name : Bytes) : Prop :=
  IsName name ∧ name ∉ reserved

namespace Literal

/-- The source of a literal: the digits of a number, or the characters of a string between quotes. -/
def source (v : Literal) : Bytes :=
  match v.kind with
  | .string => stringSource v.text
  | _ => v.text

/-- A number of 64 bits without leading zeros, or a string without stray bytes. -/
def Writable (v : Literal) : Prop :=
  (v.kind = .number ∧ ∃ n : Nat, (n : Int) ≤ Integer.greatest ∧ v.text = decimal n) ∨
    (v.kind = .string ∧ Utf8.valid v.text = true)

end Literal

namespace Node

mutual

/-- The words of a statement. -/
def lexemes : Node → List Bytes
  | .missing => []
  | .literal value _ => [value.source, ascii ";"]
  | .importing module name _ => [ascii "import", name, ascii "from", module, ascii ";"]
  | .function name _ body _ _ =>
    [ascii "void", ascii "fn", name, ascii "(", ascii ")", [Bytes.openBrace]] ++
      (blockLexemes body ++ [[Bytes.closeBrace]])
  | .call name arguments _ =>
    [name, ascii "("] ++ ((arguments.getD []).map fun n => n.operand.source) ++ [ascii ")", ascii ";"]

/-- The words of a list of statements that may be missing. -/
def blockLexemes : Option (List Node) → List Bytes
  | none => []
  | some nodes => allLexemes nodes

/-- The words of a list of statements. -/
def allLexemes : List Node → List Bytes
  | [] => []
  | n :: rest => lexemes n ++ allLexemes rest

end

mutual

/-- A node that a source can have. -/
def Writable : Node → Prop
  | .missing => False
  | .literal value _ => value.Writable
  | .importing module name _ => IsIdentifier module ∧ IsIdentifier name
  | .function name parameters body type _ =>
    IsIdentifier name ∧ parameters = none ∧ type = .void ∧ WritableBlock body
  | .call name arguments _ =>
    IsIdentifier name ∧ (arguments = none ∨ ∃ value place, arguments = some [.literal value place] ∧ value.Writable)

/-- Nodes that a source can have; a list without elements is missing. -/
def WritableBlock : Option (List Node) → Prop
  | none => True
  | some nodes => nodes ≠ [] ∧ AllWritable nodes

/-- Nodes that a source can have. -/
def AllWritable : List Node → Prop
  | [] => True
  | n :: rest => n.Writable ∧ AllWritable rest

end

end Node

/-! ## Words -/

/-- The words and operators that are the same in all sources, and their kinds. -/
def fixed : List (Bytes × Kind) :=
  [(ascii "import", .importWord), (ascii "from", .fromWord), (ascii "fn", .fnWord), (ascii "void", .typeName),
    (ascii ";", .semicolon), (ascii "(", .openParen), (ascii ")", .closeParen), ([Bytes.openBrace], .openBrace),
    ([Bytes.closeBrace], .closeBrace)]

theorem meaning_fixed : ∀ e ∈ fixed, isWord e.1 = true ∧ meaning e.1 = (e.2, e.1) := by
  decide +kernel

theorem isWord_fixed {w : Bytes} (h : w ∈ fixed.map Prod.fst) : isWord w = true := by
  obtain ⟨e, he, rfl⟩ := List.mem_map.1 h
  exact (meaning_fixed e he).1

theorem IsIdentifier.meaning_eq {name : Bytes} (h : IsIdentifier name) : meaning name = (.identifier, name) := by
  have hr := h.2
  simp only [reserved, List.mem_cons, List.not_mem_nil, or_false, not_or] at hr
  rw [meaning_name h.1, Kind.ofWord, if_neg hr.1, if_neg hr.2.1, if_neg hr.2.2.1, if_neg hr.2.2.2]

theorem Literal.Writable.isWord {v : Literal} (h : v.Writable) : isWord v.source = true := by
  rcases h with ⟨hk, n, _, ht⟩ | ⟨hk, hv⟩
  · rw [source, hk, ht]
    exact isWord_numeral (isNumeral_decimal n)
  · rw [source, hk]
    exact isWord_stringSource hv

namespace Node

mutual

theorem isWord_of_mem (n : Node) (h : n.Writable) : ∀ w ∈ n.lexemes, isWord w = true :=
  match n with
  | .missing => nofun
  | .literal value _ => by
    simp only [lexemes, List.forall_mem_cons]
    exact ⟨Literal.Writable.isWord h, isWord_fixed (by decide), nofun⟩
  | .importing module name _ => by
    simp only [lexemes, List.forall_mem_cons]
    exact ⟨isWord_fixed (by decide), isWord_name h.2.1, isWord_fixed (by decide), isWord_name h.1.1,
      isWord_fixed (by decide), nofun⟩
  | .function name _ body _ _ => by
    have hbody := isWord_of_mem_block body h.2.2.2
    simp only [lexemes, List.forall_mem_append, List.forall_mem_cons]
    exact ⟨⟨isWord_fixed (by decide), isWord_fixed (by decide), isWord_name h.1.1, isWord_fixed (by decide),
      isWord_fixed (by decide), isWord_fixed (by decide), nofun⟩, hbody, isWord_fixed (by decide), nofun⟩
  | .call name arguments _ => by
    simp only [lexemes, List.forall_mem_append, List.forall_mem_cons]
    refine ⟨⟨⟨isWord_name h.1.1, isWord_fixed (by decide), nofun⟩, ?_⟩, isWord_fixed (by decide),
      isWord_fixed (by decide), nofun⟩
    rcases h.2 with rfl | ⟨value, place, rfl, hv⟩
    · simp
    · simpa [operand] using hv.isWord

theorem isWord_of_mem_block (block : Option (List Node)) (h : WritableBlock block) :
    ∀ w ∈ blockLexemes block, isWord w = true :=
  match block with
  | none => nofun
  | some nodes => isWord_of_mem_all nodes h.2

theorem isWord_of_mem_all (nodes : List Node) (h : AllWritable nodes) : ∀ w ∈ allLexemes nodes, isWord w = true :=
  match nodes with
  | [] => nofun
  | n :: rest => by
    simp only [allLexemes, List.forall_mem_append]
    exact ⟨isWord_of_mem n h.1, isWord_of_mem_all rest h.2⟩

end

end Node

/-! ## Derivations of what is written -/

/-- No place at all. -/
def nowhere : Option Location → Option Location :=
  fun _ => none

section Tokens

variable {tokens : List Token} {w : Bytes} {rest : List (Kind × Bytes)}

/-- The first token of a list of which kinds and values are known. -/
theorem exists_terminal {kind : Kind} {value : Bytes} (hm : meaning w = (kind, value))
    (h : tokens.map Token.face = meaning w :: rest) :
    ∃ (t : Terminal kind) (later : List Token), tokens = t.1 :: later ∧ t.1.value = value ∧
      later.map Token.face = rest := by
  obtain ⟨t, later, rfl, ht, hl⟩ := List.map_eq_cons_iff.1 h
  rw [hm, Token.face, Prod.mk.injEq] at ht
  exact ⟨⟨t, ht.1⟩, later, rfl, ht.2, hl⟩

theorem exists_fixed {kind : Kind} (hw : (w, kind) ∈ fixed) (h : tokens.map Token.face = meaning w :: rest) :
    ∃ (t : Terminal kind) (later : List Token), tokens = t.1 :: later ∧ t.1.value = w ∧ later.map Token.face = rest :=
  exists_terminal (meaning_fixed _ hw).2 h

theorem exists_literal {v : Literal} (hv : v.Writable) (h : tokens.map Token.face = meaning v.source :: rest) :
    ∃ (l : LiteralToken) (later : List Token), tokens = l.token :: later ∧ l.node.relocate nowhere = .literal v none ∧
      later.map Token.face = rest := by
  obtain ⟨kind, text⟩ := v
  rcases hv with ⟨hk, n, hn, ht⟩ | ⟨hk, hv⟩
  · cases hk
    cases ht
    obtain ⟨t, later, rfl, hvalue, hl⟩ := exists_terminal (meaning_decimal hn) h
    refine ⟨.number t, later, rfl, ?_, hl⟩
    rw [LiteralToken.node, hvalue]
    rfl
  · cases hk
    obtain ⟨t, later, rfl, hvalue, hl⟩ := exists_terminal (meaning_stringSource hv) h
    refine ⟨.string t, later, rfl, ?_, hl⟩
    rw [LiteralToken.node, hvalue]
    rfl

end Tokens

namespace Node

/-- The argument of a call, or none. -/
theorem exists_argument {arguments : Option (List Node)} {tokens : List Token} {rest : List (Kind × Bytes)}
    (hw : arguments = none ∨ ∃ value place, arguments = some [.literal value place] ∧ value.Writable)
    (h : tokens.map Token.face = ((arguments.getD []).map fun n => n.operand.source).map meaning ++ rest) :
    ∃ (argument : Option LiteralToken) (later : List Token),
      tokens = (argument.map LiteralToken.token).toList ++ later ∧
      relocateBlock nowhere (argument.map fun v => [v.node]) = relocateBlock nowhere arguments ∧
      later.map Token.face = rest := by
  rcases hw with rfl | ⟨value, place, rfl, hv⟩
  · exact ⟨none, tokens, rfl, rfl, h⟩
  · obtain ⟨v, later, rfl, hn, hl⟩ := exists_literal hv h
    refine ⟨some v, later, rfl, ?_, hl⟩
    rw [Option.map_some, relocateBlock, relocateAll, hn]
    rfl

mutual

/-- Tokens with the kinds and values of the words of a statement begin with a derivation of the statement. -/
theorem exists_derivation (n : Node) (hw : n.Writable) {tokens : List Token} {rest : List (Kind × Bytes)}
    (h : tokens.map Token.face = n.lexemes.map meaning ++ rest) :
    ∃ (d : Derivation) (later : List Token), tokens = d.tokens ++ later ∧
      d.node.relocate nowhere = n.relocate nowhere ∧ later.map Token.face = rest :=
  match n with
  | .missing => nomatch hw
  | .literal value place => by
    obtain ⟨v, _, rfl, hv, h⟩ := exists_literal hw h
    obtain ⟨stop, later, rfl, _, h⟩ := exists_fixed (show (ascii ";", Kind.semicolon) ∈ fixed by decide) h
    exact ⟨.literal v stop, later, rfl, hv, h⟩
  | .importing module name place => by
    obtain ⟨start, _, rfl, _, h⟩ := exists_fixed (show (ascii "import", Kind.importWord) ∈ fixed by decide) h
    obtain ⟨t, _, rfl, ht, h⟩ := exists_terminal hw.2.meaning_eq h
    obtain ⟨word, _, rfl, _, h⟩ := exists_fixed (show (ascii "from", Kind.fromWord) ∈ fixed by decide) h
    obtain ⟨u, _, rfl, hu, h⟩ := exists_terminal hw.1.meaning_eq h
    obtain ⟨stop, later, rfl, _, h⟩ := exists_fixed (show (ascii ";", Kind.semicolon) ∈ fixed by decide) h
    refine ⟨.importing start t word u stop, later, rfl, ?_, h⟩
    rw [Derivation.node, ht, hu]
    rfl
  | .function name parameters body type place => by
    obtain ⟨hname, rfl, rfl, hbody⟩ := hw
    simp only [lexemes, List.map_append, List.map_cons, List.map_nil, List.append_assoc, List.cons_append,
      List.nil_append] at h
    obtain ⟨start, _, rfl, hs, h⟩ := exists_fixed (show (ascii "void", Kind.typeName) ∈ fixed by decide) h
    obtain ⟨word, _, rfl, _, h⟩ := exists_fixed (show (ascii "fn", Kind.fnWord) ∈ fixed by decide) h
    obtain ⟨t, _, rfl, ht, h⟩ := exists_terminal hname.meaning_eq h
    obtain ⟨opening, _, rfl, _, h⟩ := exists_fixed (show (ascii "(", Kind.openParen) ∈ fixed by decide) h
    obtain ⟨closing, _, rfl, _, h⟩ := exists_fixed (show (ascii ")", Kind.closeParen) ∈ fixed by decide) h
    obtain ⟨before, _, rfl, _, h⟩ := exists_fixed (show ([Bytes.openBrace], Kind.openBrace) ∈ fixed by decide) h
    obtain ⟨ds, _, rfl, hds, h⟩ := exists_block body hbody h
    obtain ⟨after, later, rfl, _, h⟩ := exists_fixed (show ([Bytes.closeBrace], Kind.closeBrace) ∈ fixed by decide) h
    refine ⟨.function ⟨start.1, start.2, hs⟩ word t opening closing before ds after, later, ?_, ?_, h⟩
    · simp [Derivation.tokens]
    · rw [Derivation.node, relocate, relocate, hds, ht]
      rfl
  | .call name arguments place => by
    obtain ⟨hname, harguments⟩ := hw
    simp only [lexemes, List.map_append, List.map_cons, List.map_nil, List.append_assoc, List.cons_append,
      List.nil_append] at h
    obtain ⟨t, _, rfl, ht, h⟩ := exists_terminal hname.meaning_eq h
    obtain ⟨opening, _, rfl, _, h⟩ := exists_fixed (show (ascii "(", Kind.openParen) ∈ fixed by decide) h
    obtain ⟨argument, _, rfl, ha, h⟩ := exists_argument harguments h
    obtain ⟨closing, _, rfl, _, h⟩ := exists_fixed (show (ascii ")", Kind.closeParen) ∈ fixed by decide) h
    obtain ⟨stop, later, rfl, _, h⟩ := exists_fixed (show (ascii ";", Kind.semicolon) ∈ fixed by decide) h
    refine ⟨.call t opening argument closing stop, later, ?_, ?_, h⟩
    · simp [Derivation.tokens]
    · rw [Derivation.node, relocate, relocate, ha, ht]
      rfl

theorem exists_block (block : Option (List Node)) (hw : WritableBlock block) {tokens : List Token}
    {rest : List (Kind × Bytes)} (h : tokens.map Token.face = (blockLexemes block).map meaning ++ rest) :
    ∃ (ds : List Derivation) (later : List Token), tokens = Derivation.allTokens ds ++ later ∧
      relocateBlock nowhere (Block.ofList (Derivation.nodes ds)) = relocateBlock nowhere block ∧
      later.map Token.face = rest :=
  match block with
  | none => ⟨[], tokens, rfl, rfl, h⟩
  | some nodes => by
    obtain ⟨ds, later, ht, hn, hl⟩ := exists_derivations nodes hw.2 h
    refine ⟨ds, later, ht, ?_, hl⟩
    obtain ⟨n, more, rfl⟩ := List.exists_cons_of_ne_nil hw.1
    rw [relocateBlock_ofList, hn]
    rfl

theorem exists_derivations (nodes : List Node) (hw : AllWritable nodes) {tokens : List Token}
    {rest : List (Kind × Bytes)} (h : tokens.map Token.face = (allLexemes nodes).map meaning ++ rest) :
    ∃ (ds : List Derivation) (later : List Token), tokens = Derivation.allTokens ds ++ later ∧
      relocateAll nowhere (Derivation.nodes ds) = relocateAll nowhere nodes ∧ later.map Token.face = rest :=
  match nodes with
  | [] => ⟨[], tokens, rfl, rfl, h⟩
  | n :: more => by
    rw [allLexemes, List.map_append, List.append_assoc] at h
    obtain ⟨d, _, rfl, hd, h⟩ := exists_derivation n hw.1 h
    obtain ⟨ds, later, rfl, hds, h⟩ := exists_derivations more hw.2 h
    refine ⟨d :: ds, later, by rw [Derivation.allTokens, List.append_assoc], ?_, h⟩
    rw [Derivation.nodes, relocateAll, relocateAll, hd, hds]

end

end Node

/-! ## Writing and reading -/

/-- **What is written is read again.** A tree whose names are not reserved, whose numbers fit and whose strings have no
stray bytes, with the shape of the grammar, is written as its words, with blanks between them and at both ends. The text
is parsed, and the tree that it gives is the tree that was written, but for its places. -/
theorem parse_written (file : Bytes) (statements : Node.Block) (gaps : List Bytes)
    (hw : Node.WritableBlock statements) (hg : Spread (Node.blockLexemes statements) gaps) :
    ∃ tree, parse file (tokenize file (woven gaps (Node.blockLexemes statements))) = .ok tree ∧
      tree.relocate nowhere = (Tree.mk file statements).relocate nowhere := by
  have hfaces := tokenize_spread file (Node.isWord_of_mem_block statements hw) hg
  rw [← List.append_nil (List.map meaning _)] at hfaces
  obtain ⟨ds, later, ht, hds, hl⟩ := Node.exists_block statements hw hfaces
  rw [List.map_eq_nil_iff.1 hl, List.append_nil] at ht
  refine ⟨Derivation.tree file ds, ?_, congrArg (Tree.mk file) hds⟩
  rw [ht]
  exact parse_allTokens file ds

/-- A function with braces, quotes, a backslash and a line feed in a string, spread with wide spaces. -/
theorem parse_written_string :
    let text : Bytes := Bytes.closeBrace :: ascii "\"\\\n"
    let call : Node := .call (ascii "g") (some [.literal ⟨.string, text⟩ none]) none
    let statements : Node.Block := some [.function (ascii "f") none (some [call]) .void none]
    let gaps : List Bytes := [[]] ++ List.replicate 11 [0xE2, 0x80, 0x83] ++ [ascii "\n"]
    Node.WritableBlock statements ∧ Spread (Node.blockLexemes statements) gaps ∧
    ∃ tree, parse [] (tokenize [] (woven gaps (Node.blockLexemes statements))) = .ok tree ∧
      tree.relocate nowhere = (Tree.mk [] statements).relocate nowhere := by
  intro text call statements gaps
  have hf : IsIdentifier (ascii "f") := ⟨⟨0x66, [], rfl, by decide, nofun⟩, by decide⟩
  have hg : IsIdentifier (ascii "g") := ⟨⟨0x67, [], rfl, by decide, nofun⟩, by decide⟩
  have ht : Utf8.valid text = true := by decide +kernel
  have hw : Node.WritableBlock statements :=
    ⟨by simp, ⟨hf, rfl, rfl, by simp, ⟨hg, .inr ⟨_, _, rfl, .inr ⟨rfl, ht⟩⟩⟩, trivial⟩, trivial⟩
  have hs : Spread (Node.blockLexemes statements) gaps := by
    refine ⟨by decide +kernel, ?_, ?_⟩
    · unfold Blank
      decide +kernel
    · have hinner : ∀ i < 12, 0 < i → gaps[i]? ≠ some [] := by decide
      intro i hpos hi
      exact hinner i hi hpos
  exact ⟨hw, hs, parse_written [] statements gaps hw hs⟩

end CallLang
