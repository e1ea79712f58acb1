import CallLang.Proofs.Source.Lines
import CallLang.Proofs.Token.Layout
import CallLang.Proofs.Tree.Relocation
import Mathlib.Data.List.Basic

/-!
# Two texts on lines of their own

A text that ends in no open string, a line feed, and another text: the tokens are those of the first text and then those
of the second, further down by the lines and the bytes of the first (`tokenize_feed`). The line feed is a blank, so it
ends the last symbol and the last word of the first text, and it leads the second one in at its first column.
-/

namespace CallLang

/-- A line feed keeps the symbols before it and behind it apart. -/
theorem symbols_feed (a b : Bytes) : Utf8.symbols (a ++ 0x0A :: b) = Utf8.symbols a ++ .char '\n' :: Utf8.symbols b := by
  have hfeed : ∀ r ∈ [Symbol.char '\n'], r.blank = true := by decide
  have hb : Symbol.Genuine ([.char '\n'] ++ Utf8.symbols b) :=
    (Symbol.genuine_blank_append hfeed).2 (Symbol.genuine_symbols b)
  have ha : Symbol.Genuine (Utf8.symbols a ++ []) := by
    rw [List.append_nil]
    exact Symbol.genuine_symbols a
  have hjoined := ha.append_of_same (.of_blank [] (by rintro r ⟨⟩; rfl)) hb
  rw [Symbol.Genuine, Symbol.text_append, Symbol.text_append, Symbol.text, Symbol.text, Utf8.flatMap_bytes_symbols,
    Symbol.text, Utf8.flatMap_bytes_symbols] at hjoined
  exact hjoined

namespace Piece

variable {pieces others : List Piece} {last last' : List Symbol}

theorem tokens_append (file : Bytes) (before : List Symbol) (pieces others : List Piece) :
    tokens file before (pieces ++ others) =
      tokens file before pieces ++ tokens file (before ++ pieces.flatMap symbols) others := by
  induction pieces generalizing before with
  | nil => simp [tokens]
  | cons p pieces ih => simp [tokens, ih]

/-- Pieces of a cut in front of others that begin with a blank, if no string is open at their end. -/
theorem Laid.append (h : Laid pieces last) (hc : ∀ p ∈ pieces.getLast?, p.isOpen = false) (ho : Laid others last')
    (hb : ∀ r ∈ (others.flatMap symbols ++ last').head?, r.blank = true) : Laid (pieces ++ others) last' := by
  induction pieces with
  | nil => exact ho
  | cons p pieces ih =>
    obtain ⟨hsolid, hends, hrest⟩ := h
    have hnext := ih hrest fun q hq => hc q (by rw [List.getLast?_cons, hq]; rfl)
    have hsame : Symbol.SameUntilBlank (pieces.flatMap symbols ++ last)
        ((pieces ++ others).flatMap symbols ++ last') :=
      ⟨pieces.flatMap symbols, last, others.flatMap symbols ++ last', rfl, by simp, hb⟩
    refine ⟨hsolid, hends.of_same hsame ?_, hnext⟩
    -- an open string would be the last word
    intro hopen
    have hnil := (List.append_eq_nil_iff.1 (hends.eq_nil_of_isOpen hopen)).1
    cases pieces with
    | nil => exact absurd hopen (by rw [hc p rfl]; decide)
    | cons q pieces => simp [symbols, word] at hnil

/-- Blanks in front of a text stand before its first token. -/
theorem tokens_cut_append {blanks : List Symbol} (hb : ∀ r ∈ blanks, r.blank = true) (file : Bytes)
    (before rest : List Symbol) :
    tokens file before (cut (blanks ++ rest)).1 = tokens file (before ++ blanks) (cut rest).1 := by
  have hdrop : (blanks ++ rest).dropWhile Symbol.blank = rest.dropWhile Symbol.blank :=
    List.dropWhile_append_of_pos hb
  cases hd : rest.dropWhile Symbol.blank with
  | nil =>
    rw [cut_of_blank (hdrop.trans hd), cut_of_blank hd]
    rfl
  | cons r later =>
    rw [cut_of_solid (hdrop.trans hd), cut_of_solid hd, List.takeWhile_append_of_pos hb]
    simp [tokens, token, symbols, word]

/-- Tokens behind a line feed are those of a text of its own, moved. -/
theorem tokens_feed (file : Bytes) (before rest : List Symbol) (pieces : List Piece) :
    tokens file (before ++ .char '\n' :: rest) pieces = (tokens file rest pieces).map
      (.relocate (Option.map (.shift (Position.past before).line ((Symbol.text before).length + 1)))) := by
  induction pieces generalizing rest with
  | nil => rfl
  | cons p pieces ih =>
    have hnext := ih (rest ++ p.symbols)
    rw [← List.cons_append, ← List.append_assoc] at hnext
    have htoken : p.token file (before ++ .char '\n' :: rest) = (p.token file rest).relocate
        (Option.map (.shift (Position.past before).line ((Symbol.text before).length + 1))) := by
      simp only [token, Token.relocate, List.append_assoc, List.cons_append, Position.past_feed,
        Location.ofPosition_shift, Option.map_some]
    rw [tokens, tokens, List.map_cons, hnext, htoken]

end Piece

/-- **The tokens of two texts with a line feed between them.** -/
theorem tokenize_feed (file : Bytes) {a : Bytes} (b : Bytes)
    (h : ∀ p ∈ (cut (Utf8.symbols a)).1.getLast?, p.isOpen = false) :
    tokenize file (a ++ 0x0A :: b) = tokenize file a ++
      (tokenize file b).map (.relocate (Option.map (.shift (1 + a.count 0x0A) (a.length + 1)))) := by
  have hflat := flatten_cut (Utf8.symbols a)
  have hblank := (solid_cut (Utf8.symbols a)).2
  have hlaid := laid_cut (Utf8.symbols a)
  generalize (cut (Utf8.symbols a)).2 = last at hflat hblank hlaid
  -- what is behind the words of `a` begins with a blank
  have hlead : ∀ r ∈ last ++ [Symbol.char '\n'], r.blank = true := by
    intro r hr
    rcases List.mem_append.1 hr with hr | hr
    · exact hblank r hr
    · rw [List.mem_singleton.1 hr]
      rfl
  have hhead : ∀ r ∈ (last ++ [Symbol.char '\n'] ++ Utf8.symbols b).head?, r.blank = true := by
    intro r hr
    rw [List.head?_append_of_ne_nil _ (by simp)] at hr
    exact hlead r (List.mem_of_mem_head? hr)
  have hrest := flatten_cut (last ++ [.char '\n'] ++ Utf8.symbols b)
  have hcut := cut_of_laid (hlaid.append h (laid_cut _) (by rwa [hrest]))
  rw [List.flatMap_append, List.append_assoc, hrest, ← List.append_assoc, ← List.append_assoc, hflat, List.append_assoc,
    List.singleton_append, ← symbols_feed] at hcut
  have htext : Symbol.text (Utf8.symbols a) = a := Utf8.flatMap_bytes_symbols a
  rw [tokenize_eq, hcut, Piece.tokens_append, Piece.tokens_cut_append hlead, List.nil_append, ← List.append_assoc, hflat,
    Piece.tokens_feed, Position.line_past_symbols, htext, ← tokenize_eq, ← tokenize_eq]

end CallLang
