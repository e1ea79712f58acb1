import CallLang.Proofs.Compiler.Layout
import CallLang.Proofs.Compiler.Reading
import CallLang.Proofs.Program.Concatenation
import CallLang.Proofs.Token.Concatenation
import CallLang.Proofs.Token.Spelling

/-!
# Sources one after the other

A source that is made into C text can be put in front of any other source, with a line feed between them. A statement
ends with a semicolon or a brace, so no string is open at the end of such a source (`closed_of_parse`) and the scanner is
between tokens there; the parser is between statements, and what the second source is made into does not depend on what
stands in front of it. `toC_concatenation` says this for texts and for failures, whose places move by the lines and the
bytes of the first source.
-/

namespace CallLang

/-! ## How a source ends -/

namespace Derivation

/-- A statement ends with a semicolon or a closing brace. -/
theorem kind_of_getLast (d : Derivation) : ∀ t ∈ d.tokens.getLast?, t.kind = .semicolon ∨ t.kind = .closeBrace := by
  intro t ht
  cases d with
  | importing start name word module stop =>
    cases ht
    exact .inl stop.2
  | function type word name opening closing before body after =>
    rw [tokens, ← List.append_assoc, List.getLast?_concat] at ht
    cases ht
    exact .inr after.2
  | call name opening argument closing stop =>
    rw [tokens, List.getLast?_append] at ht
    cases ht
    exact .inl stop.2
  | literal value stop =>
    cases ht
    exact .inl stop.2

theorem kind_of_getLast_all (ds : List Derivation) :
    ∀ t ∈ (allTokens ds).getLast?, t.kind = .semicolon ∨ t.kind = .closeBrace := by
  induction ds with
  | nil => simp [allTokens]
  | cons d ds ih =>
    intro t ht
    rw [allTokens, List.getLast?_append] at ht
    cases hlast : (allTokens ds).getLast? with
    | none =>
      rw [hlast] at ht
      exact d.kind_of_getLast t ht
    | some last =>
      rw [hlast] at ht
      cases ht
      exact ih t hlast

end Derivation

/-- The last token is that of the last piece. -/
theorem Piece.getLast_tokens {file : Bytes} {before : List Symbol} {pieces : List Piece} {p : Piece}
    (h : p ∈ pieces.getLast?) : ∃ before', p.token file before' ∈ (tokens file before pieces).getLast? := by
  obtain ⟨front, rfl⟩ := List.getLast?_eq_some_iff.1 h
  refine ⟨before ++ front.flatMap symbols, ?_⟩
  rw [tokens_append]
  simp [tokens]

/-- No string is open at the end of a source that is parsed. -/
theorem closed_of_parse {file text : Bytes} {tree : Tree} (h : parse file (tokenize file text) = .ok tree) :
    ∀ p ∈ (cut (Utf8.symbols text)).1.getLast?, p.isOpen = false := by
  intro p hp
  obtain ⟨ds, hd, _⟩ := exists_derivation_of_parse h
  have hlast := Derivation.kind_of_getLast_all ds
  obtain ⟨before, ht⟩ := @Piece.getLast_tokens file [] _ p hp
  rw [hd, tokenize_eq] at hlast
  have hkind := hlast _ ht
  apply Bool.eq_false_iff.2
  intro hopen
  have hq : p.head.scalar = '"' := beq_iff_eq.1 (Bool.and_eq_true_iff.1 hopen).1
  simp [Piece.token, wordMeaning, hq, operator?] at hkind

/-- The last span of a source that is parsed is no open string. -/
theorem closed_spans_of_parse {file text : Bytes} {tree : Tree} (h : parse file (tokenize file text) = .ok tree) :
    ∀ span ∈ (spans text (tokenize file text)).getLast?, isOpenString span = false := by
  have hclosed := closed_of_parse h
  have hflat := flatten_cut (Utf8.symbols text)
  have htext : text = Symbol.text ([] ++ (cut (Utf8.symbols text)).1.flatMap Piece.symbols ++
      (cut (Utf8.symbols text)).2) := by
    rw [List.nil_append, hflat]
    exact (Utf8.flatMap_bytes_symbols text).symm
  intro span hspan
  rw [tokenize_eq, Piece.spans_tokens htext, List.getLast?_map] at hspan
  obtain ⟨p, hp, rfl⟩ := Option.map_eq_some_iff.1 hspan
  have hgenuine : Symbol.Genuine p.word := by
    have hall : Symbol.Genuine ((cut (Utf8.symbols text)).1.flatMap Piece.symbols ++ (cut (Utf8.symbols text)).2) := by
      rw [hflat]
      exact Symbol.genuine_symbols text
    exact Piece.genuine_word hall (List.mem_of_getLast? hp)
  rw [Piece.isOpenString_text hgenuine]
  exact hclosed p hp

/-! ## Failures further down -/

/-- The same failure so many lines and bytes further on. -/
inductive Failure.Shifted (lines bytes : Nat) : Failure → Failure → Prop where
  | parse {e e' : ParseError} {l : Location} (reason : e'.reason.text = e.reason.text) (place : e.place = some l)
      (moved : e'.place = some (l.shift lines bytes)) : Shifted lines bytes (.parse e) (.parse e')
  | range {e e' : RangeError} {l : Location} (function : e'.function = e.function) (value : e'.value = e.value)
      (place : e.place = some l) (moved : e'.place = some (l.shift lines bytes)) :
      Shifted lines bytes (.range e) (.range e')

/-- The place of each token of a text is there. -/
theorem exists_place {file text : Bytes} {place : Option Location} (h : place ∈ (tokenize file text).map Token.place) :
    ∃ l, place = some l := by
  obtain ⟨t, ht, rfl⟩ := List.mem_map.1 h
  obtain ⟨l, hl, _⟩ := place_of_mem_tokenize ht
  exact ⟨l, hl⟩

/-! ## Two sources -/

section Joined

variable {file a : Bytes} {front : Tree}

/-- What is behind a source that is parsed is parsed as if it stood alone, at other places. -/
theorem parse_feed (h : parse file (tokenize file a) = .ok front) (b : Bytes) :
    parse file (tokenize file (a ++ 0x0A :: b)) =
      (((parse file (tokenize file b)).map
        (Tree.relocate (Option.map (.shift (1 + a.count 0x0A) (a.length + 1))))).mapError
        (ParseError.relocate (Option.map (.shift (1 + a.count 0x0A) (a.length + 1))))).map fun tree =>
          ⟨file, Node.Block.ofList (front.statements.getD [] ++ tree.statements.getD [])⟩ := by
  obtain ⟨ds, hd, rfl⟩ := exists_derivation_of_parse h
  rw [tokenize_feed file b (closed_of_parse h), ← hd, parse_append, parse_relocate, Derivation.tree, Node.getD_ofList]

/-- Where tokens stand does not matter for whether their program is readable. -/
theorem readable_relocate (φ : Option Location → Option Location) {file : Bytes} {tokens : List Token} {tree : Tree}
    (h : parse file tokens = .ok tree) (hs : ∀ t ∈ tokens, t.Spelled) :
    Instr.ReadableBlock (tree.relocate φ).lower.instructions := by
  have hmoved := parse_relocate φ file tokens
  rw [h] at hmoved
  apply readable_of_parse hmoved
  intro t ht
  obtain ⟨u, hu, rfl⟩ := List.mem_map.1 ht
  exact hs u hu

/-- The instructions of a joined source are those of its parts. -/
theorem instrs_joined (file : Bytes) (front tree : Tree) :
    (Tree.mk file (Node.Block.ofList (front.statements.getD [] ++ tree.statements.getD []))).lower.instrs =
      front.lower.instrs ++ tree.lower.instrs := by
  rw [Tree.instrs_lower, Node.getD_ofList, Node.lowerAll_append, ← Tree.instrs_lower, ← Tree.instrs_lower]

end Joined

/-- **Sources one after the other.** A source that is made into C text ends in no open string. With a line feed and
another source behind it, it is made into the C text of both, one after the other, and the line of the include stands in
front if one of them has it. If the other source fails, the whole fails in the same way, further down by the lines and
the bytes before it. -/
theorem toC_concatenation (c : Compiler) (file a b text : Bytes) (h : (c.toC file [⟨a, none⟩]).result = .ok text) :
    (∀ span ∈ (spans a (tokenize file a)).getLast?, isOpenString span = false) ∧
    (∀ text', (c.toC file [⟨b, none⟩]).result = .ok text' →
      (c.toC file [⟨a ++ ascii "\n" ++ b, none⟩]).result =
        .ok ((if C.included text || C.included text' then Program.includeLine else []) ++
          (C.withoutInclude text ++ C.withoutInclude text'))) ∧
    ∀ e, (c.toC file [⟨b, none⟩]).result = .error e →
      ∃ e', (c.toC file [⟨a ++ ascii "\n" ++ b, none⟩]).result = .error e' ∧
        e.Shifted (1 + a.count 0x0A) (a.length + 1) e' := by
  obtain ⟨front, hfront, htext⟩ := Compiler.result_eq_ok_iff.1 h
  have hfeed : a ++ ascii "\n" ++ b = a ++ 0x0A :: b := by rw [List.append_assoc]; rfl
  have hparse := parse_feed hfront b
  rw [hfeed]
  generalize hφ : Option.map (Location.shift (1 + a.count 0x0A) (a.length + 1)) = φ at hparse
  refine ⟨closed_spans_of_parse hfront, ?_, ?_⟩
  · intro text' h'
    obtain ⟨tree, htree, htext'⟩ := Compiler.result_eq_ok_iff.1 h'
    rw [htree] at hparse
    have hmoved : (tree.relocate φ).lower.toC = .ok text' := by
      rw [Tree.lower_relocate, Program.toC_relocate, htext']
      rfl
    have hread : Instr.ReadableBlock (tree.relocate φ).lower.instructions :=
      readable_relocate φ htree (Scanner.spelled_run _)
    exact Compiler.result_eq_ok_iff.2 ⟨_, hparse,
      Program.toC_append (instrs_joined file front _) htext (readable_of_parse hfront (Scanner.spelled_run _)) hread
        hmoved⟩
  · intro e he
    rcases Compiler.result_eq_error_iff.1 he with ⟨error, herror, rfl⟩ | ⟨tree, error, htree, herror, rfl⟩
    · rw [herror] at hparse
      obtain ⟨l, hl⟩ := exists_place (place_of_parse_error herror)
      refine ⟨_, Compiler.result_eq_error_iff.2 (.inl ⟨_, hparse, rfl⟩), ?_⟩
      exact .parse (Reason.text_relocate φ error.reason) hl (by rw [← hφ, ParseError.relocate, hl]; rfl)
    · rw [htree] at hparse
      have hmoved : (tree.relocate φ).lower.toC = .error (error.relocate φ) := by
        rw [Tree.lower_relocate, Program.toC_relocate, herror]
        rfl
      obtain ⟨l, hl⟩ := exists_place (place_of_range_error htree herror)
      refine ⟨_, Compiler.result_eq_error_iff.2 (.inr ⟨_, _, hparse,
        Program.toC_append_error (instrs_joined file front _) htext hmoved, rfl⟩), ?_⟩
      exact .range rfl rfl hl (by rw [← hφ, RangeError.relocate, hl]; rfl)

/-- A string over two lines and a call of `exit`, in front of a call, of a code that is too large, and of an early
end. -/
theorem toC_concatenation_lines :
    let a := ascii "f(\"\n\"); exit(3);"
    let text := ascii "#include <stdlib.h>\nf(\"\\n\");exit(3);"
    let good := ascii "g();"
    let wrong := ascii "\n exit(256);"
    let early := ascii "g("
    (Compiler.toC {} [] [⟨a, none⟩]).result = .ok text ∧ (Compiler.toC {} [] [⟨good, none⟩]).result = .ok good ∧
    (Compiler.toC {} [] [⟨a ++ ascii "\n" ++ good, none⟩]).result = .ok (text ++ good) ∧
    (Compiler.toC {} [] [⟨wrong, none⟩]).result =
      .error (.range ⟨some ⟨[], 2, 2, 2⟩, ascii "exit", ascii "256"⟩) ∧
    (∃ e', (Compiler.toC {} [] [⟨a ++ ascii "\n" ++ wrong, none⟩]).result = .error e' ∧
      Failure.Shifted 2 17 (.range ⟨some ⟨[], 2, 2, 2⟩, ascii "exit", ascii "256"⟩) e') ∧
    (Compiler.toC {} [] [⟨early, none⟩]).result = .error (.parse ⟨some ⟨[], 1, 2, 1⟩, .endInArguments⟩) ∧
    ∃ e', (Compiler.toC {} [] [⟨a ++ ascii "\n" ++ early, none⟩]).result = .error e' ∧
      Failure.Shifted 2 17 (.parse ⟨some ⟨[], 1, 2, 1⟩, .endInArguments⟩) e' := by
  intro a text good wrong early
  have ha : (Compiler.toC {} [] [⟨a, none⟩]).result = .ok text := by decide +kernel
  have hgood : (Compiler.toC {} [] [⟨good, none⟩]).result = .ok good := by decide +kernel
  have hwrong : (Compiler.toC {} [] [⟨wrong, none⟩]).result =
      .error (.range ⟨some ⟨[], 2, 2, 2⟩, ascii "exit", ascii "256"⟩) := by decide +kernel
  have hearly : (Compiler.toC {} [] [⟨early, none⟩]).result =
      .error (.parse ⟨some ⟨[], 1, 2, 1⟩, .endInArguments⟩) := by decide +kernel
  have htext : (if C.included text || C.included good then Program.includeLine else []) ++
      (C.withoutInclude text ++ C.withoutInclude good) = text ++ good := by decide +kernel
  have hlines : 1 + a.count 0x0A = 2 := by decide +kernel
  have hbytes : a.length + 1 = 17 := by decide +kernel
  have hjoined := (toC_concatenation {} [] a good text ha).2.1 good hgood
  have hrange := (toC_concatenation {} [] a wrong text ha).2.2 _ hwrong
  have hparse := (toC_concatenation {} [] a early text ha).2.2 _ hearly
  rw [htext] at hjoined
  rw [hlines, hbytes] at hrange hparse
  exact ⟨ha, hgood, hjoined, hwrong, hrange, hearly, hparse⟩

end CallLang
