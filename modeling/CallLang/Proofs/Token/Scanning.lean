import CallLang.Proofs.Source.Delivery
import CallLang.Proofs.Token.Cut

/-!
# A scanner follows the cut

A scanner on clean deliveries is described by the symbols behind it and the symbols before it (`Scanner.At`): it stands
at the place behind the ones, the bytes ahead have the others, and it has met no failure. Every operation of the scanner
is then a step of the cut, with one lemma for each of them, from `next` to `token?`.

- `At.run`: a run gives the tokens of the cut and leaves nothing;
- `runs_of_clean`: so do all further runs, which find nothing more;
- `tokenize_eq`: the tokens of a text are those of the cut of its symbols.
-/

namespace CallLang

/-- The character of a symbol is blank if the symbol is. -/
theorem isBlank_scalar (r : Symbol) : isBlank r.scalar = r.blank := by
  cases r with
  | char c => rfl
  | stray b => rfl

namespace Scanner

/-! ## One step of each loop -/

section Steps

variable {s t u : Scanner} {c e : Char} {p : Char → Bool}

theorem takeWhile_step (h : s.accept (Option.guard p) = (some c, t)) :
    s.takeWhile p = (c :: (t.takeWhile p).1, (t.takeWhile p).2) := by
  rw [takeWhile]
  split <;> simp_all

theorem takeWhile_stop (h : s.accept (Option.guard p) = (none, t)) : s.takeWhile p = ([], t) := by
  rw [takeWhile]
  split <;> simp_all

theorem nextSolid_blank (h : s.next = (some c, t)) (hb : isBlank c = true) : s.nextSolid = t.nextSolid := by
  rw [nextSolid]
  split <;> simp_all

theorem nextSolid_solid (h : s.next = (some c, t)) (hb : isBlank c = false) :
    s.nextSolid = (some (s.position, c), t) := by
  rw [nextSolid]
  split <;> simp_all

theorem nextSolid_end (h : s.next = (none, t)) : s.nextSolid = (none, t) := by
  rw [nextSolid]
  split <;> simp_all

theorem stringBody_end (h : s.next = (none, t)) : s.stringBody = ([], t) := by
  rw [stringBody]
  split <;> simp_all

theorem stringBody_quote (h : s.next = (some '"', t)) : s.stringBody = ([], t) := by
  rw [stringBody]
  split <;> simp_all

theorem stringBody_escape (h : s.next = (some '\\', t)) (ha : t.accept escape? = (some e, u)) :
    s.stringBody = (e :: u.stringBody.1, u.stringBody.2) := by
  rw [stringBody]
  split <;> simp_all
  split <;> simp_all

theorem stringBody_backslash (h : s.next = (some '\\', t)) (ha : t.accept escape? = (none, u)) :
    s.stringBody = ('\\' :: u.stringBody.1, u.stringBody.2) := by
  rw [stringBody]
  split <;> simp_all
  split <;> simp_all

theorem stringBody_plain (h : s.next = (some c, t)) (hq : c ≠ '"') (hb : c ≠ '\\') :
    s.stringBody = (c :: t.stringBody.1, t.stringBody.2) := by
  rw [stringBody]
  split <;> simp_all

theorem run_step {token : Token} (h : s.token? = (some token, t)) : s.run = (token :: t.run.1, t.run.2) := by
  rw [run]
  split <;> simp_all

theorem run_stop (h : s.token? = (none, t)) : s.run = ([], t) := by
  rw [run]
  split <;> simp_all

end Steps

/-- A scanner that has `before` behind it and `after` in front of it. -/
structure At (file : Bytes) (before after : List Symbol) (s : Scanner) : Prop where
  file_eq : s.file = file
  position_eq : s.position = .past before
  symbols_eq : Utf8.symbols s.input.ahead = after
  smooth : s.input.Smooth
  healthy : s.failure = none

variable {file : Bytes} {before after rest : List Symbol} {r : Symbol} {s : Scanner}

/-- A scanner of clean deliveries stands at the start of what they bring. -/
theorem at_ofDeliveries (file : Bytes) {coming : List Delivery} (h : Input.Clean coming) :
    (ofDeliveries file coming).At file [] (Utf8.symbols (Input.incoming coming)) where
  file_eq := rfl
  position_eq := rfl
  symbols_eq := rfl
  smooth := ⟨h, .inl rfl⟩
  healthy := rfl

namespace At

/-! ## Single symbols -/

theorem ahead_eq_nil (h : s.At file before []) : s.input.ahead = [] :=
  Utf8.symbols_eq_nil_iff.1 h.symbols_eq

/-- The end of the input is not remembered as a failure. -/
theorem of_ended (h : s.At file before []) {input : Input} (hs : input.Smooth) (ha : input.ahead = []) :
    ({ s with input }.note .ended).At file before [] :=
  ⟨h.file_eq, h.position_eq, Utf8.symbols_eq_nil_iff.2 ha, hs, h.healthy⟩

theorem next_nil (h : s.At file before []) : ∃ t, s.next = (none, t) ∧ t.At file before [] := by
  obtain ⟨j, hj, hs, ha⟩ := Input.next_of_nil h.smooth h.ahead_eq_nil
  exact ⟨_, by simp only [Scanner.next, hj], h.of_ended hs ha⟩

theorem next_cons (h : s.At file before (r :: rest)) :
    ∃ t, s.next = (some r.scalar, t) ∧ t.At file (before ++ [r]) rest := by
  obtain ⟨j, hj, hs, ha⟩ := Input.next_of_symbols h.smooth h.symbols_eq
  refine ⟨{ s with input := j, position := s.position.advance r }, by simp only [Scanner.next, hj], ?_⟩
  exact ⟨h.file_eq, by rw [Position.past_concat, h.position_eq], ha, hs, h.healthy⟩

theorem peek_nil (h : s.At file before []) : ∃ t, s.peek = (none, t) ∧ t.At file before [] := by
  obtain ⟨j, hj, hs, ha⟩ := Input.peek_of_nil h.smooth h.ahead_eq_nil
  exact ⟨_, by simp only [Scanner.peek, hj], h.of_ended hs ha⟩

theorem peek_cons (h : s.At file before (r :: rest)) :
    ∃ t, s.peek = (some r.scalar, t) ∧ t.At file before (r :: rest) := by
  obtain ⟨j, hj, hs, ha⟩ := Input.peek_of_symbols h.smooth h.symbols_eq
  refine ⟨{ s with input := j }, by simp only [Scanner.peek, hj], ?_⟩
  exact ⟨h.file_eq, h.position_eq, ha, hs, h.healthy⟩

section Accept

variable {α : Type} {f : Char → Option α}

theorem accept_nil (h : s.At file before []) : ∃ t, s.accept f = (none, t) ∧ t.At file before [] := by
  obtain ⟨t, ht, hat⟩ := h.peek_nil
  exact ⟨t, by simp only [accept, ht], hat⟩

theorem accept_some (h : s.At file before (r :: rest)) {a : α} (hf : f r.scalar = some a) :
    ∃ t, s.accept f = (some a, t) ∧ t.At file (before ++ [r]) rest := by
  obtain ⟨t, ht, hat⟩ := h.peek_cons
  obtain ⟨u, hu, hau⟩ := hat.next_cons
  exact ⟨u, by simp only [accept, ht, hf, hu], hau⟩

theorem accept_none (h : s.At file before (r :: rest)) (hf : f r.scalar = none) :
    ∃ t, s.accept f = (none, t) ∧ t.At file before (r :: rest) := by
  obtain ⟨t, ht, hat⟩ := h.peek_cons
  exact ⟨t, by simp only [accept, ht, hf], hat⟩

end Accept

/-! ## Runs of symbols -/

theorem takeWhile (p : Char → Bool) (h : s.At file before after) :
    ∃ t, s.takeWhile p = ((after.takeWhile (p ·.scalar)).map Symbol.scalar, t) ∧
      t.At file (before ++ after.takeWhile (p ·.scalar)) (after.dropWhile (p ·.scalar)) := by
  induction after generalizing before s with
  | nil =>
    obtain ⟨t, ht, hat⟩ := h.accept_nil (f := Option.guard p)
    exact ⟨t, takeWhile_stop ht, by simpa using hat⟩
  | cons r rest ih =>
    cases hp : p r.scalar with
    | true =>
      obtain ⟨t, ht, hat⟩ := h.accept_some (f := Option.guard p) (a := r.scalar) (by simp [Option.guard, hp])
      obtain ⟨u, hu, hau⟩ := ih hat
      refine ⟨u, ?_, by simpa [hp] using hau⟩
      rw [takeWhile_step ht, hu]
      simp [hp]
    | false =>
      obtain ⟨t, ht, hat⟩ := h.accept_none (f := Option.guard p) (by simp [Option.guard, hp])
      refine ⟨t, ?_, by simpa [hp] using hat⟩
      rw [takeWhile_stop ht]
      simp [hp]

theorem stringBody_nil (h : s.At file before []) : ∃ t, s.stringBody = ([], t) ∧ t.At file before [] := by
  obtain ⟨t, ht, hat⟩ := h.next_nil
  exact ⟨t, stringBody_end ht, hat⟩

/-- A string is read as far as the cut says. The cases are those of `splitString`: the end of the text, a last symbol,
the closing quote, an escape, any other symbol. -/
theorem stringBody (h : s.At file before after) :
    ∃ t, s.stringBody = (stringValue after, t) ∧
      t.At file (before ++ (splitString after).1) (splitString after).2 := by
  fun_induction splitString after generalizing before s with
  | case1 =>
    obtain ⟨t, ht, hat⟩ := h.stringBody_nil
    exact ⟨t, ht, by simpa using hat⟩
  | case2 r =>
    obtain ⟨t, ht, hat⟩ := h.next_cons
    by_cases hq : r.scalar = '"'
    · rw [hq] at ht
      exact ⟨t, by rw [stringBody_quote ht]; simp [stringValue, hq], hat⟩
    by_cases hb : r.scalar = '\\'
    · obtain ⟨u, hu, hau⟩ := hat.accept_nil (f := escape?)
      obtain ⟨v, hv, hav⟩ := hau.stringBody_nil
      rw [hb] at ht
      exact ⟨v, by rw [stringBody_backslash ht hu, hv]; simp [stringValue, hb], hav⟩
    · obtain ⟨v, hv, hav⟩ := hat.stringBody_nil
      exact ⟨v, by rw [stringBody_plain ht hq hb, hv]; simp [stringValue, hq], hav⟩
  | case3 r e rest hq =>
    obtain ⟨t, ht, hat⟩ := h.next_cons
    rw [hq] at ht
    exact ⟨t, by rw [stringBody_quote ht]; simp [stringValue, hq], hat⟩
  | case4 r e rest hq he ih =>
    obtain ⟨hb, he⟩ := he
    obtain ⟨c, hc⟩ := Option.isSome_iff_exists.1 he
    obtain ⟨t, ht, hat⟩ := h.next_cons
    obtain ⟨u, hu, hau⟩ := hat.accept_some hc
    obtain ⟨v, hv, hav⟩ := ih hau
    rw [hb] at ht
    exact ⟨v, by rw [stringBody_escape ht hu, hv]; simp [stringValue, hb, hc], by simpa using hav⟩
  | case5 r e rest hq he ih =>
    obtain ⟨t, ht, hat⟩ := h.next_cons
    by_cases hb : r.scalar = '\\'
    · have hc : escape? e.scalar = none := by simpa [hb] using he
      obtain ⟨u, hu, hau⟩ := hat.accept_none hc
      obtain ⟨v, hv, hav⟩ := ih hau
      rw [hb] at ht
      exact ⟨v, by rw [stringBody_backslash ht hu, hv]; simp [stringValue, hb, hc], by simpa using hav⟩
    · obtain ⟨v, hv, hav⟩ := ih hat
      exact ⟨v, by rw [stringBody_plain ht hq hb, hv]; simp [stringValue, hq, hb], by simpa using hav⟩

/-! ## Words and tokens -/

/-- Blanks are passed over, and a symbol that is none is taken with its place. -/
theorem nextSolid (h : s.At file before after) :
    (after.dropWhile Symbol.blank = [] → ∃ t, s.nextSolid = (none, t) ∧ t.At file (before ++ after) []) ∧
    ∀ r rest, after.dropWhile Symbol.blank = r :: rest →
      ∃ t, s.nextSolid = (some (.past (before ++ after.takeWhile Symbol.blank), r.scalar), t) ∧
        t.At file (before ++ after.takeWhile Symbol.blank ++ [r]) rest := by
  induction after generalizing before s with
  | nil =>
    obtain ⟨t, ht, hat⟩ := h.next_nil
    exact ⟨fun _ => ⟨t, nextSolid_end ht, by simpa using hat⟩, fun r rest hd => by cases hd⟩
  | cons a after ih =>
    obtain ⟨t, ht, hat⟩ := h.next_cons
    cases ha : a.blank with
    | true =>
      have hs := nextSolid_blank ht (by rw [isBlank_scalar, ha])
      simpa [ha, hs] using ih hat
    | false =>
      have hs := nextSolid_solid ht (by rw [isBlank_scalar, ha])
      constructor
      · intro hd
        simp [ha] at hd
      · intro r rest hd
        simp only [List.dropWhile_cons, ha, Bool.false_eq_true, if_false, List.cons.injEq] at hd
        obtain ⟨rfl, rfl⟩ := hd
        exact ⟨t, by simp [hs, ha, h.position_eq], by simpa [ha] using hat⟩

/-- A word goes as far as the cut says and means what it says. -/
theorem lexeme (c : Char) (h : s.At file before after) :
    ∃ t, s.lexeme c = (wordMeaning c (splitWord c after).1, t) ∧
      t.At file (before ++ (splitWord c after).1) (splitWord c after).2 := by
  unfold Scanner.lexeme wordMeaning splitWord
  cases ho : operator? c with
  | some kind => exact ⟨s, rfl, by simpa using h⟩
  | none =>
    by_cases hq : c = '"'
    · obtain ⟨t, ht, hat⟩ := h.stringBody
      exact ⟨t, by simp [hq, ht, stringValue_splitString], by simpa [hq] using hat⟩
    by_cases hd : isDigit c = true
    · obtain ⟨t, ht, hat⟩ := h.takeWhile isDigit
      refine ⟨t, ?_, by simpa [hq, hd] using hat⟩
      simp only [hq, hd, ht, Option.isSome_none, Bool.false_eq_true, if_true, if_false]
      cases Integer.read (encoded (c :: (after.takeWhile (isDigit ·.scalar)).map Symbol.scalar)) <;> rfl
    by_cases hw : isWordStart c = true
    · obtain ⟨t, ht, hat⟩ := h.takeWhile isWordPart
      exact ⟨t, by simp [hq, hd, hw, ht], by simpa [hq, hd, hw] using hat⟩
    · exact ⟨s, by simp [hq, hd, hw], by simpa [hq, hd, hw] using h⟩

/-- There is no token in blanks. -/
theorem token_blank (h : s.At file before after) (hd : after.dropWhile Symbol.blank = []) :
    ∃ t, s.token? = (none, t) ∧ t.At file (before ++ after) [] := by
  obtain ⟨t, ht, hat⟩ := h.nextSolid.1 hd
  exact ⟨t, by simp only [token?, ht], hat⟩

/-- The next token is that of the next piece. -/
theorem token_solid (h : s.At file before after) (hd : after.dropWhile Symbol.blank = r :: rest) :
    ∃ t, s.token? = (some (Piece.token file before
        ⟨after.takeWhile Symbol.blank, r, (splitWord r.scalar rest).1⟩), t) ∧
      t.At file (before ++ Piece.symbols ⟨after.takeWhile Symbol.blank, r, (splitWord r.scalar rest).1⟩)
        (splitWord r.scalar rest).2 := by
  obtain ⟨t, ht, hat⟩ := h.nextSolid.2 r rest hd
  obtain ⟨u, hu, hau⟩ := hat.lexeme r.scalar
  refine ⟨u, ?_, by simpa [Piece.symbols, Piece.word] using hau⟩
  simp only [token?, ht, hu, Piece.token, h.file_eq, hau.position_eq, Position.offset_past, Piece.word]
  congr 3
  simp only [Symbol.text_append, Symbol.text_cons, Symbol.text_nil, List.length_append, List.length_nil]
  omega

/-- **A run gives the tokens of the cut** and leaves nothing. -/
theorem run (h : s.At file before after) :
    ∃ t, s.run = (Piece.tokens file before (cut after).1, t) ∧ t.At file (before ++ after) [] := by
  fun_induction cut after generalizing before s with
  | case1 after hd =>
    obtain ⟨t, ht, hat⟩ := h.token_blank hd
    exact ⟨t, run_stop ht, hat⟩
  | case2 after r rest hd ih =>
    obtain ⟨t, ht, hat⟩ := h.token_solid hd
    obtain ⟨u, hu, hau⟩ := ih hat
    refine ⟨u, by rw [run_step ht, hu]; rfl, ?_⟩
    have hall : Piece.symbols ⟨after.takeWhile Symbol.blank, r, (splitWord r.scalar rest).1⟩ ++
        (splitWord r.scalar rest).2 = after := by
      rw [Piece.symbols, Piece.word, List.append_assoc, List.cons_append, splitWord_append, ← hd,
        List.takeWhile_append_dropWhile]
    rwa [List.append_assoc, hall] at hau

/-- Further runs find nothing more. -/
theorem runs (h : s.At file before []) (tokens : List Token) (n : Nat) :
    Scanner.runs tokens s n = List.replicate n ⟨tokens, none⟩ := by
  induction n generalizing before s with
  | zero => rfl
  | succ n ih =>
    obtain ⟨t, ht, hat⟩ := h.run
    have hn : Piece.tokens file before (cut []).1 = [] := by rw [cut_of_blank rfl]; rfl
    rw [hn] at ht
    simp only [Scanner.runs, ht, List.append_nil, hat.healthy, List.replicate_succ, ih hat]

end At

/-- All runs on clean deliveries see the tokens of the cut and no failure. -/
theorem runs_of_clean {coming : List Delivery} (h : Input.Clean coming) (n : Nat) :
    Scanner.runs [] (ofDeliveries file coming) n =
      List.replicate n ⟨Piece.tokens file [] (cut (Utf8.symbols (Input.incoming coming))).1, none⟩ := by
  cases n with
  | zero => rfl
  | succ n =>
    obtain ⟨t, ht, hat⟩ := (at_ofDeliveries file h).run
    simp only [Scanner.runs, ht, List.nil_append, hat.healthy, List.replicate_succ, hat.runs]

end Scanner

/-- **The tokens of a text are those of its cut.** -/
theorem tokenize_eq (file text : Bytes) :
    tokenize file text = Piece.tokens file [] (cut (Utf8.symbols text)).1 := by
  obtain ⟨t, ht, _⟩ := (Scanner.at_ofDeliveries file (Input.clean_single text)).run
  have he : Input.incoming [⟨text, none⟩] = text := List.append_nil text
  rw [he] at ht
  exact congrArg Prod.fst ht

end CallLang
