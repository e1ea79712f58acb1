import CallLang.Proofs.Program.Concatenation
import CallLang.Proofs.Tree.Relocation

/-!
# Parsing with more tokens behind

What the parser has found in a list of tokens stands when more tokens follow, unless it has met the end of the list. A
list that is accepted is read in the same way in front of others (`parse_append`), so this is about failures: one that is
not put down to the end is met in the longer list too.

- `Parser.Stands`: the outcome of a reader does not depend on what follows, nor on the place of the end, or it is due to
  the end (`Outcome.Early`). Readers that are put together from such readers are such readers (`stands_bind`). Two look
  ahead at a token that they do not take: after the argument of a call the end is met in the next step
  (`stands_arguments`), and after a literal it is put down to the literal, which is then the last token
  (`statement_stands`);
- `Parser.program_failed_append`: so it is for programs. A body that was split off is the same in the longer list, and so
  is the last token in it.
-/

namespace CallLang

/-! ## Failures at the end -/

/-- The reasons to fail where the tokens end. -/
def Reason.isEnding : Reason → Bool
  | .endBefore _ | .endInArguments | .endInBody | .strayLiteral => true
  | _ => false

theorem Reason.text_of_isEnding {r : Reason} (h : r.isEnding = true) :
    ascii "unexpected EOF" <+: r.text ∨ r.text = ascii "unexpected literal" := by
  cases r with
  | endBefore slot =>
    have hwords : ascii "unexpected EOF" <+: ascii "unexpected EOF: expected " := by decide +kernel
    exact .inl (hwords.trans (List.prefix_append _ slot.words))
  | endInArguments => exact .inl (by decide +kernel)
  | endInBody => exact .inl (by decide +kernel)
  | strayLiteral => exact .inr rfl
  | _ => cases h

/-- An error that says that the tokens have ended too early, at the last of them. -/
structure ParseError.AtEnd (tokens : List Token) (e : ParseError) : Prop where
  reason : ascii "unexpected EOF" <+: e.reason.text ∨ e.reason.text = ascii "unexpected literal"
  place : ∃ last, tokens.getLast? = some last ∧ e.place = last.place

namespace Outcome

variable {α : Type}

/-- A failure that is put down to the end of the tokens. -/
def Early (ending : Option Location) : Outcome α → Prop
  | .done _ _ => False
  | .failed e _ => e.reason.isEnding = true ∧ e.place = ending

/-- The outcome with more tokens behind those that are left. -/
def followed (more : List Token) : Outcome α → Outcome α
  | .done a rest => .done a (rest ++ more)
  | .failed e rest => .failed e (rest ++ more)

end Outcome

/-! ## Readers -/

namespace Parser

variable {α β : Type}

/-- A reader has an outcome that stands whatever follows the tokens and wherever they end, or it has met their end. -/
def StandsAt (p : Parser α) (ending : Option Location) (tokens : List Token) : Prop :=
  (p ending tokens).Early ending ∨ ∀ ending' more, p ending' (tokens ++ more) = (p ending tokens).followed more

/-- A reader whose outcome stands for all tokens, unless it has met their end. -/
def Stands (p : Parser α) : Prop :=
  ∀ ending tokens, p.StandsAt ending tokens

theorem stands_pure (a : α) : Stands (pure a) := by
  intro ending tokens
  exact .inr fun _ _ => rfl

theorem stands_fail (place : Option Location) (reason : Reason) : Stands (fail place reason : Parser α) := by
  intro ending tokens
  exact .inr fun _ _ => rfl

theorem stands_bind {p : Parser α} {k : α → Parser β} (hp : Stands p) (hk : ∀ a, Stands (k a)) : Stands (p >>= k) := by
  intro ending tokens
  have h := hp ending tokens
  simp only [StandsAt, bind] at h ⊢
  cases hr : p ending tokens with
  | failed e rest =>
    rw [hr] at h
    rcases h with early | same
    · exact .inl early
    · refine .inr fun ending' more => ?_
      rw [same ending' more]
      rfl
  | done a rest =>
    rw [hr] at h
    rcases h with early | same
    · cases early
    · rcases hk a ending rest with early | later
      · exact .inl early
      · refine .inr fun ending' more => ?_
        rw [same ending' more]
        exact later ending' more

theorem stands_token {atEnd : Reason} (h : atEnd.isEnding = true) : Stands (token atEnd) := by
  intro ending tokens
  cases tokens with
  | nil => exact .inl ⟨h, rfl⟩
  | cons t rest => exact .inr fun _ _ => rfl

theorem stands_expect (slot : Slot) : Stands (expect slot) := by
  apply stands_bind (stands_token rfl)
  intro t
  split
  · exact stands_pure t
  · exact stands_fail t.place (.mismatch slot t)

/-- The brace that ends a body is the same if more tokens follow. -/
theorem splitBody_append {depth : Nat} {tokens inner rest : List Token}
    (h : splitBody depth tokens = some (inner, rest)) (more : List Token) :
    splitBody depth (tokens ++ more) = some (inner, rest ++ more) := by
  obtain ⟨close, hk, rfl, hc⟩ := splitBody_eq_some_iff.1 h
  exact splitBody_eq_some_iff.2 ⟨close, hk, by rw [List.append_assoc, List.cons_append], hc⟩

theorem stands_body : Stands body := by
  intro ending tokens
  cases h : splitBody 0 tokens with
  | none =>
    left
    rw [body, h]
    exact ⟨rfl, rfl⟩
  | some split =>
    refine .inr fun ending' more => ?_
    rw [body, body, splitBody_append h, h]
    rfl

theorem stands_importing (start : Token) : Stands (importing start) := by
  apply stands_bind (stands_expect _)
  intro name
  apply stands_bind (stands_expect _)
  intro _
  apply stands_bind (stands_expect _)
  intro module
  apply stands_bind (stands_expect _)
  intro _
  exact stands_pure _

theorem stands_function (start : Token) : Stands (function start) := by
  unfold function
  split
  · exact stands_fail start.place (.unknownType start.value)
  · apply stands_bind (stands_expect _)
    intro _
    apply stands_bind (stands_expect _)
    intro name
    apply stands_bind (stands_expect _)
    intro _
    apply stands_bind (stands_expect _)
    intro _
    apply stands_bind (stands_expect _)
    intro _
    apply stands_bind stands_body
    intro tokens
    exact stands_pure _

/-- A look at the next token does no harm if the reader behind takes this token. -/
theorem stands_noExtra_bind (name : Bytes) {k : Parser α} (hk : Stands k)
    (hend : ∀ ending, (k ending []).Early ending) : Stands (noExtra name >>= fun _ => k) := by
  intro ending tokens
  cases tokens with
  | nil => exact .inl (hend ending)
  | cons t rest =>
    simp only [StandsAt, bind, noExtra, List.cons_append]
    by_cases ht : isExtra t = true
    · simp only [if_pos ht]
      exact .inr fun _ _ => rfl
    · simp only [if_neg ht]
      exact hk ending (t :: rest)

theorem stands_arguments (name : Bytes) : Stands (arguments name) := by
  apply stands_bind (stands_token rfl)
  intro t
  split
  · exact stands_pure _
  · split
    · refine stands_noExtra_bind name (stands_bind (stands_expect _) fun _ => stands_pure _) ?_
      intro ending
      exact ⟨rfl, rfl⟩
    · exact stands_fail t.place (.badArgument t)

theorem stands_call (start : Token) : Stands (call start) := by
  apply stands_bind (stands_expect _)
  intro _
  apply stands_bind (stands_arguments _)
  intro arguments
  apply stands_bind (stands_expect _)
  intro _
  exact stands_pure _

theorem literalStatement_stands (start : Token) (tokens : List Token) :
    (literalStatement start).StandsAt (lastPlace (start :: tokens)) tokens := by
  cases tokens with
  | nil => exact .inl ⟨rfl, rfl⟩
  | cons t rest =>
    simp only [StandsAt, literalStatement, List.cons_append]
    by_cases ht : t.kind = .semicolon
    · simp only [if_pos ht]
      exact .inr fun _ _ => rfl
    · simp only [if_neg ht]
      exact .inr fun _ _ => rfl

/-- What is read of a statement stands, if an early end is put down to the last token. -/
theorem statement_stands (start : Token) (tokens : List Token) :
    (statement start).StandsAt (lastPlace (start :: tokens)) tokens := by
  unfold statement
  split
  · exact stands_importing start _ tokens
  · exact stands_function start _ tokens
  · exact stands_call start _ tokens
  · exact literalStatement_stands start tokens
  · exact literalStatement_stands start tokens
  · exact stands_fail start.place (.unexpected start) _ tokens

/-! ## Programs -/

section Statements

variable {start : Token} {tokens rest : List Token} {s : Statement}
  (h : statement start (lastPlace (start :: tokens)) tokens = .done s rest)

include h

/-- A statement that is read stands when more tokens follow. -/
theorem statement_append (ending : Option Location) (more : List Token) :
    statement start ending (tokens ++ more) = .done s (rest ++ more) := by
  rcases statement_stands start tokens with early | same
  · rw [h] at early
    cases early
  · rw [same, h]
    rfl

/-- What is left behind a statement ends where the tokens end. -/
theorem lastPlace_left (hrest : rest ≠ []) : lastPlace (start :: tokens) = lastPlace rest := by
  rcases statement_eq_done h with ⟨d, hd, _⟩ | ⟨type, word, name, opening, closing, before, inner, after, hf, _⟩
  · rw [hd, lastPlace_append _ hrest]
  · rw [hf, lastPlace_append _ (by simp), lastPlace_append _ (by simp), ← List.singleton_append,
      lastPlace_append _ hrest]

end Statements

theorem map_eq_failed {f : α → β} {o : Outcome α} {e : ParseError} {rest : List Token} :
    o.map f = .failed e rest ↔ o = .failed e rest := by
  cases o with
  | done a left => simp [Outcome.map]
  | failed e left => simp [Outcome.map]

/-- **A failure stands when more tokens follow, or it is put down to the last token.** -/
theorem program_failed_append {ending : Option Location} {tokens left : List Token} {e : ParseError}
    (hend : tokens ≠ [] → ending = lastPlace tokens) (h : program ending tokens = .failed e left) :
    (program ending tokens).Early ending ∨
      ∀ ending' more, program ending' (tokens ++ more) = .failed e (left ++ more) := by
  -- along the statements that are read, the place of the end stays that of the last token
  fun_induction program ending tokens generalizing e left with
  | case1 => cases h
  | case2 ending start tokens e' left' hs =>
    cases h
    obtain rfl := hend (List.cons_ne_nil _ _)
    rcases statement_stands start tokens with early | same
    · rw [hs] at early
      exact .inl early
    · refine .inr fun ending' more => ?_
      rw [List.cons_append, program_cons, same, hs]
      rfl
  | case3 ending start tokens n rest hs ih =>
    obtain rfl := hend (List.cons_ne_nil _ _)
    have hlater := map_eq_failed.1 h
    rw [hlater] at ih ⊢
    rcases ih (lastPlace_left hs) rfl with early | same
    · exact .inl early
    · refine .inr fun ending' more => ?_
      rw [List.cons_append, program_cons, statement_append hs]
      simp only [same]
      rfl
  | case4 ending start tokens name type place inner rest hs e' _ hb ihb =>
    obtain rfl := hend (List.cons_ne_nil _ _)
    cases h
    refine .inr fun ending' more => ?_
    rw [List.cons_append, program_cons, statement_append hs]
    simp only [hb]
  | case5 ending start tokens name type place inner rest hs nodes _ hb ihb ih =>
    obtain rfl := hend (List.cons_ne_nil _ _)
    have hlater := map_eq_failed.1 h
    rw [hlater] at ih ⊢
    rcases ih (lastPlace_left hs) rfl with early | same
    · exact .inl early
    · refine .inr fun ending' more => ?_
      rw [List.cons_append, program_cons, statement_append hs]
      simp only [hb, same]
      rfl

end Parser

/-! ## Lists of tokens -/

/-- A list that is rejected is rejected for the same reason in front of other tokens, or it ends too early. -/
theorem parse_error_append {file : Bytes} {tokens : List Token} {e : ParseError} (h : parse file tokens = .error e) :
    e.AtEnd tokens ∨ ∀ more, parse file (tokens ++ more) = .error e := by
  unfold parse at h
  cases hr : Parser.run tokens with
  | done nodes left =>
    rw [hr] at h
    cases h
  | failed e' left =>
    rw [hr] at h
    cases h
    rcases Parser.program_failed_append (fun _ => rfl) hr with early | same
    · rw [Parser.run] at hr
      rw [hr] at early
      have hne : tokens ≠ [] := by
        rintro rfl
        rw [Parser.program] at hr
        cases hr
      refine .inl ⟨Reason.text_of_isEnding early.1, tokens.getLast hne, List.getLast?_eq_some_getLast hne, ?_⟩
      rw [early.2, Parser.lastPlace, List.getLast?_eq_some_getLast hne]
      rfl
    · refine .inr fun more => ?_
      rw [parse, Parser.run, same]
      rfl

/-- **Parsing with more tokens behind.** If a list of tokens is accepted, the statements of what follows it are put
behind its own, and what is wrong with what follows is what is wrong with the whole. If it is rejected, the error says
that the tokens have ended too early, at the last of them, or the list is rejected with the same error whatever follows
it. So a beginning of an accepted list is accepted, or it ends too early. -/
theorem parse_extended (file : Bytes) (tokens : List Token) :
    (∀ tree, parse file tokens = .ok tree → ∀ more,
      (∀ tree', parse file more = .ok tree' → parse file (tokens ++ more) =
        .ok ⟨file, Node.Block.ofList (tree.statements.getD [] ++ tree'.statements.getD [])⟩) ∧
      ∀ e, parse file more = .error e → parse file (tokens ++ more) = .error e) ∧
    (∀ e, parse file tokens = .error e → e.AtEnd tokens ∨ ∀ more, parse file (tokens ++ more) = .error e) ∧
    ∀ more tree, parse file (tokens ++ more) = .ok tree →
      (∃ tree', parse file tokens = .ok tree') ∨ ∃ e, parse file tokens = .error e ∧ e.AtEnd tokens := by
  refine ⟨?_, fun _ => parse_error_append, ?_⟩
  · intro tree h more
    obtain ⟨ds, rfl, rfl⟩ := exists_derivation_of_parse h
    rw [parse_append, Derivation.tree, Node.getD_ofList]
    constructor
    · intro tree' hmore
      rw [hmore]
      rfl
    · intro e hmore
      rw [hmore]
      rfl
  · intro more tree h
    cases hp : parse file tokens with
    | ok tree' => exact .inl ⟨tree', rfl⟩
    | error e =>
      rcases parse_error_append hp with hend | same
      · exact .inr ⟨e, rfl, hend⟩
      · rw [same more] at h
        cases h

/-- The tokens of `void fn f(){1`, which end too early. With `;}` behind they are accepted, also twice. With `}` behind,
what is wrong is in the body, and it is wrong whatever follows. -/
theorem parse_extended_function :
    let word (kind : Kind) (value : String) (column : Nat) : Token :=
      ⟨kind, ascii value, some ⟨[], 1, column, column - 1⟩, 1⟩
    let front := [word .typeName "void" 1, word .fnWord "fn" 6, word .identifier "f" 9, word .openParen "(" 10,
      word .closeParen ")" 11, word .openBrace (.singleton '{') 12, word .number "1" 13]
    let whole := front ++ [word .semicolon ";" 14, word .closeBrace (.singleton '}') 15]
    let wrong := front ++ [word .closeBrace (.singleton '}') 14]
    (∃ e, parse [] front = .error e ∧ e.AtEnd front) ∧
    (∃ tree, parse [] whole = .ok tree ∧ parse [] (whole ++ whole) =
      .ok ⟨[], Node.Block.ofList (tree.statements.getD [] ++ tree.statements.getD [])⟩) ∧
    ∀ more, parse [] (wrong ++ more) = .error ⟨some ⟨[], 1, 13, 12⟩, .strayLiteral⟩ := by
  intro word front whole wrong
  have hfront : (parse [] front).isOk = false := by decide +kernel
  have hwhole : (parse [] whole).isOk = true := by decide +kernel
  have hwrong : (parse [] wrong).map (fun _ => ()) = .error ⟨some ⟨[], 1, 13, 12⟩, .strayLiteral⟩ := by decide +kernel
  cases hw : parse [] whole with
  | error e =>
    rw [hw] at hwhole
    cases hwhole
  | ok tree =>
    refine ⟨?_, ⟨tree, rfl, ((parse_extended [] whole).1 tree hw whole).1 tree hw⟩, ?_⟩
    · rcases (parse_extended [] front).2.2 _ tree hw with ⟨tree', h⟩ | hend
      · rw [h] at hfront
        cases hfront
      · exact hend
    · cases h : parse [] wrong with
      | ok tree' =>
        rw [h] at hwrong
        cases hwrong
      | error e =>
        rw [h] at hwrong
        cases hwrong
        rcases (parse_extended [] wrong).2.1 _ h with ⟨_, last, hlast, hplace⟩ | same
        · cases hlast
          exact absurd hplace (by decide)
        · exact same

end CallLang
