import CallLang.Proofs.Token.Concatenation
import Mathlib.Data.List.DropRight

/-!
# Where tokens stand

A scanner counts lines, columns and bytes as it takes symbols. What it has counted is said here by the text alone: the
line is one more than the line feeds before a place, and the column is one more than the symbols of the line that have
been read (`lastLine`).

- `Position.column_past`: the column counts on as long as no line feed is met;
- `Position.past_symbols`: so the place behind a text is a function of its bytes. A line feed is always a symbol of its
  own, so the last line can be cut off before its symbols are counted;
- `Piece.exists_front`: a token is put down at the place behind the symbols in front of it, and these are the symbols of
  the bytes in front of it, whatever comes behind (`Symbol.Genuine.front`).
-/

namespace CallLang

/-! ## The last line of a text -/

/-- The bytes behind the last line feed of a text, or the whole text if it has none. -/
def lastLine (text : Bytes) : Bytes :=
  text.rtakeWhile (· != 0x0A)

theorem feed_not_mem_lastLine (text : Bytes) : 0x0A ∉ lastLine text := by
  intro h
  have := List.mem_rtakeWhile_imp h
  simp at this

/-- A text is its last line, or it has more lines in front of it. -/
theorem lastLine_cases (text : Bytes) : lastLine text = text ∨ ∃ front, text = front ++ 0x0A :: lastLine text := by
  induction text using List.reverseRecOn with
  | nil => exact .inl rfl
  | append_singleton text b ih =>
    by_cases hb : b = 0x0A
    · right
      refine ⟨text, ?_⟩
      rw [lastLine, List.rtakeWhile_concat, if_neg (by simp [hb]), hb]
    · have hline : lastLine (text ++ [b]) = lastLine text ++ [b] := by
        rw [lastLine, List.rtakeWhile_concat, if_pos (by simpa using hb), lastLine]
      rw [hline]
      rcases ih with h | ⟨front, h⟩
      · exact .inl (by rw [h])
      · right
        refine ⟨front, ?_⟩
        rw [← List.cons_append, ← List.append_assoc, ← h]

/-! ## The place behind a text -/

namespace Position

/-- The column counts the symbols, if none of them starts a new line. -/
theorem column_past {before : List Symbol} (h : before.countP (·.scalar = '\n') = 0) :
    (past before).column = 1 + before.length := by
  induction before using List.reverseRecOn with
  | nil => rfl
  | append_singleton before r ih =>
    rw [List.countP_append, Nat.add_eq_zero_iff, List.countP_singleton] at h
    have hr : ¬ r.scalar = '\n' := by
      intro hr
      simp [hr] at h
    rw [past_concat, advance, if_neg hr, List.length_append, List.length_singleton, ← Nat.add_assoc]
    exact congrArg (· + 1) (ih h.1)

/-- The column behind a text counts the symbols of its last line. -/
theorem column_past_symbols (text : Bytes) :
    (past (Utf8.symbols text)).column = 1 + (Utf8.symbols (lastLine text)).length := by
  have hlast : (past (Utf8.symbols (lastLine text))).column = 1 + (Utf8.symbols (lastLine text)).length := by
    apply column_past
    rw [Utf8.countP_feed_symbols]
    exact List.count_eq_zero_of_not_mem (feed_not_mem_lastLine text)
  rcases lastLine_cases text with h | ⟨front, h⟩
  · rwa [h] at hlast ⊢
  · -- the line feed in front of the last line sets the column back
    rw [← hlast]
    conv_lhs => rw [h, symbols_feed, past_feed]
    rfl

/-- **The place behind a text** counts its line feeds, the symbols of its last line, and its bytes. -/
theorem past_symbols (text : Bytes) :
    past (Utf8.symbols text) = ⟨1 + text.count 0x0A, 1 + (Utf8.symbols (lastLine text)).length, text.length⟩ := by
  have hoffset := offset_past (Utf8.symbols text)
  rw [Symbol.text, Utf8.flatMap_bytes_symbols] at hoffset
  rw [← line_past_symbols, ← column_past_symbols, ← hoffset]

end Position

/-! ## The places of tokens -/

/-- Each token of some pieces stands at the place behind the symbols in front of it. -/
theorem Piece.exists_front {file : Bytes} {before : List Symbol} {pieces : List Piece} {t : Token}
    (h : t ∈ tokens file before pieces) :
    ∃ front r back, before ++ pieces.flatMap symbols = front ++ r :: back ∧
      t.place = some (.ofPosition file (.past front)) := by
  induction pieces generalizing before with
  | nil => cases h
  | cons p pieces ih =>
    rcases List.mem_cons.1 h with rfl | h
    · refine ⟨before ++ p.gap, p.head, p.tail ++ pieces.flatMap symbols, ?_, rfl⟩
      simp [symbols, word]
    · obtain ⟨front, r, back, hsplit, hplace⟩ := ih h
      refine ⟨front, r, back, ?_, hplace⟩
      rw [← hsplit, List.flatMap_cons, List.append_assoc]

/-- **The places of tokens are exact.** A token stands at an offset in its text where a symbol starts: the bytes in front
of it are cut into symbols as they are in the whole text. Its line is one more than the line feeds in front of it, and its
column is one more than the symbols between the last of them and the token; line feeds inside of earlier tokens count
like all others. -/
theorem tokenize_places_exact (file text : Bytes) : ∀ t ∈ tokenize file text, ∃ o < text.length,
    t.place = some ⟨file, (1 + (text.take o).count 0x0A : Nat),
      (1 + (Utf8.symbols (lastLine (text.take o))).length : Nat), o⟩ ∧
    Utf8.symbols text = Utf8.symbols (text.take o) ++ Utf8.symbols (text.drop o) := by
  intro t ht
  rw [tokenize_eq] at ht
  obtain ⟨front, r, back, hsplit, hplace⟩ := Piece.exists_front ht
  have hsymbols : Utf8.symbols text = front ++ (r :: back ++ (cut (Utf8.symbols text)).2) := by
    rw [← List.append_assoc, ← hsplit, List.nil_append, flatten_cut]
  have hgenuine := Symbol.genuine_symbols text
  rw [hsymbols] at hgenuine
  have htext : text = Symbol.text front ++ Symbol.text (r :: back ++ (cut (Utf8.symbols text)).2) := by
    rw [← Symbol.text_append, ← hsymbols]
    exact (Utf8.flatMap_bytes_symbols text).symm
  have htake : text.take (Symbol.text front).length = Symbol.text front := by
    conv_lhs => rw [htext, List.take_left]
  have hdrop : text.drop (Symbol.text front).length = Symbol.text (r :: back ++ (cut (Utf8.symbols text)).2) := by
    conv_lhs => rw [htext, List.drop_left]
  refine ⟨(Symbol.text front).length, ?_, ?_, ?_⟩
  · have hlength := congrArg List.length htext
    have hpos := List.length_pos_iff.2 r.bytes_ne_nil
    rw [List.cons_append, Symbol.text_cons, List.length_append, List.length_append] at hlength
    omega
  · rw [htake, hplace, ← hgenuine.front, Position.past_symbols, hgenuine.front]
    rfl
  · rw [htake, hdrop, hgenuine.front, hgenuine.of_append]
    exact hsymbols

/-- A string over three lines, with a stray byte and a line feed behind a backslash, a word behind it, and a parenthesis
on the line after that, behind a character of two bytes. -/
theorem tokenize_places_exact_lines :
    let text : Bytes := ascii "\"a\n" ++ [0xFF] ++ ascii "\\\n\" b\n" ++ [0xC3, 0xA9] ++ ascii "("
    let t : Token := ⟨.openParen, ascii "(", some ⟨ascii "f", 4, 2, 12⟩, 1⟩
    t ∈ tokenize (ascii "f") text ∧ (text.take 12).count 0x0A = 3 ∧ lastLine (text.take 12) = [0xC3, 0xA9] ∧
    ∃ o < text.length, t.place = some ⟨ascii "f", (1 + (text.take o).count 0x0A : Nat),
        (1 + (Utf8.symbols (lastLine (text.take o))).length : Nat), o⟩ ∧
      Utf8.symbols text = Utf8.symbols (text.take o) ++ Utf8.symbols (text.drop o) := by
  intro text t
  have ht : t ∈ tokenize (ascii "f") text := by decide +kernel
  exact ⟨ht, by decide +kernel, by decide +kernel, tokenize_places_exact (ascii "f") text t ht⟩

end CallLang
