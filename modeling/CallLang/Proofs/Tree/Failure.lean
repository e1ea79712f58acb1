import CallLang.Proofs.Token.Locations
import CallLang.Proofs.Token.Words
import CallLang.Proofs.Tree.Extension

/-!
# The statement that fails

A run goes statement by statement, and the first one that fails ends it. So the tokens of a list that is rejected have a
front that is accepted, and what is behind it is rejected for the same reason, by its first statement.

- `Parser.FirstFails`: how the first statement of some tokens fails, down to the innermost body;
- `Parser.exists_firstFails`: a run that fails has such a statement. The place of the end goes along: in what is left of
  the tokens it is still the last of them (`Parser.lastPlace_left`), and a body has an end of its own;
- `Parser.FirstFails.exists_place`: the error has the place of a token, and that token stands behind the start of the
  innermost statement that fails, in the same body. No list on this way is empty, so there is always a last token.
-/

namespace CallLang

namespace Parser

/-- How the first statement of some tokens fails: it cannot be read (`head`), or it is a function, and behind statements
that are read a statement of its body fails (`body`). The second list are the tokens from the innermost statement that
fails up to the end of the list that it stands in. -/
inductive FirstFails : (tokens inner : List Token) → ParseError → Prop where
  | head {start : Token} {tokens left : List Token} {e : ParseError} :
      statement start (lastPlace (start :: tokens)) tokens = .failed e left →
      FirstFails (start :: tokens) (start :: tokens) e
  | body {start : Token} {tokens front back left inner : List Token} {name : Bytes} {type : ReturnType}
      {place : Option Location} {nodes : List Node} {e : ParseError} :
      statement start (lastPlace (start :: tokens)) tokens = .done (.function name type place (front ++ back)) left →
      run front = .done nodes [] → FirstFails back inner e → FirstFails (start :: tokens) inner e

/-- **A run that fails has a first statement that fails**, behind statements that are read. -/
theorem exists_firstFails {ending : Option Location} {tokens left : List Token} {e : ParseError}
    (hend : tokens ≠ [] → ending = lastPlace tokens) (h : program ending tokens = .failed e left) :
    ∃ ds back inner, tokens = Derivation.allTokens ds ++ back ∧ FirstFails back inner e := by
  fun_induction program ending tokens generalizing e left with
  | case1 => cases h
  | case2 ending start tokens e' left' hs =>
    cases h
    obtain rfl := hend (List.cons_ne_nil _ _)
    exact ⟨[], start :: tokens, start :: tokens, rfl, .head hs⟩
  | case3 ending start tokens n rest hs ih =>
    obtain rfl := hend (List.cons_ne_nil _ _)
    obtain ⟨ds, back, inner, rfl, hf⟩ := ih (lastPlace_left hs) (map_eq_failed.1 h)
    rcases statement_eq_done hs with ⟨d, hd, _⟩ | ⟨_, _, _, _, _, _, _, _, _, hn⟩
    · refine ⟨d :: ds, back, inner, ?_, hf⟩
      rw [hd, Derivation.allTokens, List.append_assoc]
    · cases hn
  | case4 ending start tokens name type place inner rest hs e' _ hb ihb =>
    obtain rfl := hend (List.cons_ne_nil _ _)
    cases h
    obtain ⟨ds, back, slice, rfl, hf⟩ := ihb (fun _ => rfl) hb
    exact ⟨[], start :: tokens, slice, rfl, .body hs (program_allTokens ds _) hf⟩
  | case5 ending start tokens name type place inner rest hs nodes _ hb ihb ih =>
    obtain rfl := hend (List.cons_ne_nil _ _)
    obtain ⟨ds, back, slice, rfl, hf⟩ := ih (lastPlace_left hs) (map_eq_failed.1 h)
    obtain ⟨ds', rfl, rfl⟩ := derivation_of_program hb
    rcases statement_eq_done hs with ⟨_, _, hn⟩ | ⟨type, word, name, opening, closing, before, _, after, he, hn⟩
    · cases hn
    · cases hn
      refine ⟨.function type word name opening closing before ds' after :: ds, back, slice, ?_, hf⟩
      rw [he]
      simp [Derivation.allTokens, Derivation.tokens]

namespace FirstFails

variable {tokens inner : List Token} {e : ParseError}

theorem ne_nil (h : FirstFails tokens inner e) : tokens ≠ [] := by
  cases h with
  | head _ => exact List.cons_ne_nil _ _
  | body _ _ _ => exact List.cons_ne_nil _ _

/-- A run over tokens whose first statement fails has the error of this statement. -/
theorem run_eq (h : FirstFails tokens inner e) : ∃ left, run tokens = .failed e left := by
  induction h with
  | @head start tokens left e hs =>
    refine ⟨left, ?_⟩
    rw [run, program_cons, hs]
  | @body start tokens front back left inner name type place nodes e hs hfront _ ih =>
    obtain ⟨rest, hback⟩ := ih
    obtain ⟨ds, rfl, _⟩ := derivation_of_program hfront
    have hbody := run_append ds back
    rw [hback, run] at hbody
    refine ⟨left, ?_⟩
    rw [run, program_cons, hs]
    simp only [hbody]
    rfl

/-- The innermost statement that fails has no body that does. -/
theorem of_inner (h : FirstFails tokens inner e) : FirstFails inner inner e := by
  induction h with
  | head hs => exact .head hs
  | body _ _ _ ih => exact ih

/-- What is read of a body stands between the tokens of its function. -/
theorem inner_infix (h : FirstFails tokens inner e) : inner <:+: tokens := by
  induction h with
  | head _ => exact List.infix_rfl
  | @body start tokens front back left inner name type place nodes e hs _ _ ih =>
    rcases statement_eq_done hs with ⟨_, _, hn⟩ | ⟨type, word, name, opening, closing, before, _, after, he, hn⟩
    · cases hn
    · cases hn
      rw [he]
      refine ih.trans ((List.suffix_append front back).isInfix.trans ?_)
      exact ⟨[type.1, word.1, name.1, opening.1, closing.1, before.1], after.1 :: left, by simp⟩

/-- The error has the place of a token from the innermost statement that fails on. -/
theorem exists_place (h : FirstFails tokens inner e) : ∃ t ∈ inner, e.place = t.place := by
  obtain ⟨left, hrun⟩ := h.of_inner.run_eq
  have hparse : parse [] inner = .error e := by rw [parse, hrun]; rfl
  obtain ⟨t, ht, hplace⟩ := List.mem_map.1 (place_of_parse_error hparse)
  exact ⟨t, ht, hplace.symm⟩

end FirstFails

end Parser

/-! ## Messages -/

/-- A token of a source stands at a line and a column of it. -/
theorem exists_position {file text : Bytes} {t : Token} (h : t ∈ tokenize file text) :
    ∃ p : Position, t.place = some (.ofPosition file p) := by
  rw [tokenize_eq] at h
  obtain ⟨front, _, _, _, hplace⟩ := Piece.exists_front h
  exact ⟨.past front, hplace⟩

/-- The message of an error at a position of a source. -/
theorem ParseError.message_eq {file : Bytes} {p : Position} {e : ParseError}
    (h : e.place = some (.ofPosition file p)) :
    e.message = file ++ ascii ":" ++ decimal p.line ++ ascii ":" ++ decimal p.column ++ ascii ": " ++ e.reason.text := by
  rw [message, h, Location.tagged, Location.render, Location.ofPosition, signed_natCast, signed_natCast]

/-- **An error belongs to the first statement that fails, and it has a place.** The tokens of a list that is rejected are
a front that is accepted and a rest, and the rest is rejected with the same error, by its first statement. The error has
the place of a token of the rest, from the innermost statement that fails on: if this statement is in the body of a
function, the token is. So the message about a source begins with the name of the file and with the line and the column
of a token. -/
theorem parse_error_placed (file : Bytes) :
    (∀ tokens e, parse file tokens = .error e → ∃ front back inner tree, tokens = front ++ back ∧ back ≠ [] ∧
      parse file front = .ok tree ∧ parse file back = .error e ∧ Parser.FirstFails back inner e ∧
      inner <:+: back ∧ ∃ t ∈ inner, e.place = t.place) ∧
    ∀ text e, parse file (tokenize file text) = .error e →
      ∃ t ∈ tokenize file text, ∃ p : Position, t.place = some (.ofPosition file p) ∧ e.place = t.place ∧
        e.message = file ++ ascii ":" ++ decimal p.line ++ ascii ":" ++ decimal p.column ++ ascii ": " ++
          e.reason.text := by
  constructor
  · intro tokens e h
    unfold parse at h
    cases hr : Parser.run tokens with
    | done nodes left =>
      rw [hr] at h
      cases h
    | failed e' left =>
      rw [hr] at h
      cases h
      obtain ⟨ds, back, inner, rfl, hf⟩ := Parser.exists_firstFails (fun _ => rfl) hr
      obtain ⟨left', hback⟩ := hf.run_eq
      refine ⟨Derivation.allTokens ds, back, inner, Derivation.tree file ds, rfl, hf.ne_nil, parse_allTokens file ds, ?_,
        hf, hf.inner_infix, hf.exists_place⟩
      rw [parse, hback]
      rfl
  · intro text e h
    obtain ⟨t, ht, hplace⟩ := List.mem_map.1 (place_of_parse_error h)
    obtain ⟨p, hp⟩ := exists_position ht
    exact ⟨t, ht, p, hp, hplace.symm, ParseError.message_eq (hplace.symm.trans hp)⟩

/-- The error that a check of a result finds is the one that it has. -/
theorem eq_error_of_map {ε α β : Type} {f : α → β} {r : Except ε α} {e : ε} (h : r.map f = .error e) : r = .error e := by
  cases r with
  | ok a => cases h
  | error e' => exact congrArg _ (Except.error.inj h)

/-- A call, and then a function with a literal and another function in it. The body of the latter ends too early, and the
error is put down to the parenthesis there, although tokens follow. -/
theorem parse_error_placed_nested :
    let text := ascii "f();\nvoid fn g()" ++
      Bytes.braced (ascii "1; void fn h()" ++ Bytes.braced (ascii "2; x(") ++ ascii " 3")
    let e : ParseError := ⟨some ⟨ascii "a", 2, 32, 36⟩, .endInArguments⟩
    parse (ascii "a") (tokenize (ascii "a") text) = .error e ∧
    e.message = ascii "a:2:32: unexpected EOF: expected close paren or literal after open paren" ∧
    (∃ front back inner tree, tokenize (ascii "a") text = front ++ back ∧ back ≠ [] ∧
      parse (ascii "a") front = .ok tree ∧ parse (ascii "a") back = .error e ∧ Parser.FirstFails back inner e ∧
      inner <:+: back ∧ ∃ t ∈ inner, e.place = t.place) ∧
    ∃ t ∈ tokenize (ascii "a") text, ∃ p : Position, t.place = some (.ofPosition (ascii "a") p) ∧ e.place = t.place := by
  intro text e
  have hcheck : (parse (ascii "a") (tokenize (ascii "a") text)).map (fun _ => ()) = .error e := by decide +kernel
  have hparse := eq_error_of_map hcheck
  obtain ⟨hsplit, hplaced⟩ := parse_error_placed (ascii "a")
  obtain ⟨t, ht, p, hp, hplace, _⟩ := hplaced text e hparse
  exact ⟨hparse, by decide +kernel, hsplit _ e hparse, t, ht, p, hp, hplace⟩

end CallLang
