import CallLang.Proofs.Token.Layout

/-!
# Words that stand alone

Some texts are one word by themselves: fixed words and operators, names, numerals, and strings with their closing quote
(`isWord`). Such a text is the same word with blanks before and behind it, so the tokens of a text that is made of words
and of blanks between them can be read off the words (`tokenize_spread`).

- `meaning_name`, `meaning_decimal`: names and numerals are read as themselves;
- `meaning_stringSource`: a text between quotes, with a backslash before each quote and each backslash in it, is read as
  a string with this text.
-/

namespace CallLang

/-- A text that is one word by itself, and that ends where a blank follows. -/
def isWord (w : Bytes) : Bool :=
  match Utf8.symbols w with
  | [] => false
  | r :: tail => !r.blank && splitWord r.scalar tail == (tail, []) && (r.scalar != '"' || closes tail)

/-- The kind and the value that a word has as a token. -/
def meaning (w : Bytes) : Kind × Bytes :=
  match Utf8.symbols w with
  | [] => (.unknown, [])
  | r :: tail => wordMeaning r.scalar tail

/-- The kind and the value of a token. -/
def Token.face (t : Token) : Kind × Bytes :=
  (t.kind, t.value)

/-- Gaps around words: blanks before, between and behind them, and at least one between neighbours. -/
structure Spread (words gaps : List Bytes) : Prop where
  length_eq : gaps.length = words.length + 1
  blank : ∀ gap ∈ gaps, Blank gap
  apart : ∀ i, 0 < i → i < words.length → gaps[i]? ≠ some []

theorem isWord_iff {w : Bytes} :
    isWord w = true ↔ ∃ r tail, Utf8.symbols w = r :: tail ∧ r.blank = false ∧
      splitWord r.scalar tail = (tail, []) ∧ (r.scalar = '"' → closes tail = true) := by
  unfold isWord
  cases Utf8.symbols w with
  | nil => simp
  | cons r tail =>
    simp only [Bool.and_eq_true, Bool.not_eq_true', beq_iff_eq, Bool.or_eq_true, bne_iff_ne, ne_eq, List.cons.injEq,
      and_assoc]
    constructor
    · rintro ⟨hb, hs, hc⟩
      exact ⟨r, tail, rfl, rfl, hb, hs, fun hq => hc.resolve_left (not_not_intro hq)⟩
    · rintro ⟨r', tail', rfl, rfl, hb, hs, hc⟩
      refine ⟨hb, hs, ?_⟩
      by_cases hq : r.scalar = '"'
      · exact .inr (hc hq)
      · exact .inl hq

/-! ## Words between blanks -/

namespace Piece

variable {file : Bytes} {pieces : List Piece} {last : List Symbol}

/-- If there are blanks before the first piece, the pieces begin with a blank. -/
theorem Laid.blank_head (h : Laid pieces last) (ha : ∀ p ∈ pieces.head?, p.gap ≠ []) :
    ∀ r ∈ (pieces.flatMap symbols ++ last).head?, r.blank = true := by
  intro r hr
  cases pieces with
  | nil => exact h r (List.mem_of_mem_head? hr)
  | cons p pieces =>
    obtain ⟨q, gap, hgap⟩ := List.exists_cons_of_ne_nil (ha p rfl)
    rw [List.flatMap_cons, symbols, List.append_assoc, List.append_assoc, hgap] at hr
    cases hr
    exact h.1.blank _ (by rw [hgap]; exact List.mem_cons_self)

/-- A word behind a gap ends where a blank or nothing follows. -/
theorem exists_ends {w : Bytes} (h : isWord w = true) (gap : List Symbol) {rest : List Symbol}
    (hr : ∀ r ∈ rest.head?, r.blank = true) :
    ∃ p : Piece, p.gap = gap ∧ Symbol.text p.word = w ∧ p.head.blank = false ∧ Symbol.Genuine p.word ∧ p.Ends rest := by
  obtain ⟨r, tail, hsymbols, hsolid, hsplit, hclosed⟩ := isWord_iff.1 h
  refine ⟨⟨gap, r, tail⟩, rfl, ?_, hsolid, ?_, ?_⟩
  · rw [word, ← hsymbols]
    exact Utf8.flatMap_bytes_symbols w
  · rw [word, ← hsymbols]
    exact Symbol.genuine_symbols w
  · have hends : Ends ⟨gap, r, tail⟩ [] := by
      rw [Ends, List.append_nil]
      exact hsplit
    apply hends.of_same (.of_blank [] hr)
    intro ho
    obtain ⟨hq, hc⟩ := Bool.and_eq_true_iff.1 ho
    rw [hclosed (beq_iff_eq.1 hq)] at hc
    cases hc

/-- Pieces are laid out one before the other, with blanks between them. -/
theorem exists_laid_words {words gaps : List Bytes} (hw : ∀ w ∈ words, isWord w = true)
    (hlen : gaps.length = words.length) (hb : ∀ gap ∈ gaps, Blank gap) (ha : ∀ i, gaps[i + 1]? ≠ some [])
    (hl : ∀ r ∈ last, r.blank = true) :
    ∃ pieces, Laid pieces last ∧ Symbol.Genuine (pieces.flatMap symbols ++ last) ∧
      pieces.map (fun p => Symbol.text p.gap) = gaps ∧ pieces.map (fun p => Symbol.text p.word) = words := by
  induction words generalizing gaps with
  | nil => exact ⟨[], hl, Symbol.genuine_of_blank hl, (List.length_eq_zero_iff.1 hlen).symm, rfl⟩
  | cons w words ih =>
    cases gaps with
    | nil => cases hlen
    | cons gap gaps =>
      obtain ⟨pieces, hlaid, hgenuine, hgaps, hwords⟩ := ih (fun v hv => hw v (List.mem_cons_of_mem _ hv))
        (Nat.succ.inj hlen) (fun g hg => hb g (List.mem_cons_of_mem _ hg)) fun i => ha (i + 1)
      have hnext : ∀ r ∈ (pieces.flatMap symbols ++ last).head?, r.blank = true := by
        apply hlaid.blank_head
        intro q hq hnil
        apply ha 0
        rw [List.getElem?_cons_succ, ← List.head?_eq_getElem?, ← hgaps, List.head?_map, hq, Option.map_some, hnil]
        rfl
      obtain ⟨p, hgap, htext, hsolid, hword, hends⟩ := exists_ends (hw w List.mem_cons_self) (Utf8.symbols gap) hnext
      have hblank : ∀ r ∈ p.gap, r.blank = true := by
        rw [hgap]
        exact hb gap List.mem_cons_self
      refine ⟨p :: pieces, ⟨⟨hblank, hsolid⟩, hends, hlaid⟩, ?_, ?_, ?_⟩
      · rw [genuine_cons_iff hblank]
        exact Symbol.Genuine.append_of_same (by rwa [List.append_nil]) (.of_blank [] hnext) hgenuine
      · rw [List.map_cons, hgaps, hgap, Symbol.text, Utf8.flatMap_bytes_symbols]
      · rw [List.map_cons, hwords, htext]

theorem map_meaning_tokens (hw : ∀ p ∈ pieces, Symbol.Genuine p.word) (before : List Symbol) :
    (tokens file before pieces).map Token.face =
      (pieces.map fun p => Symbol.text p.word).map meaning := by
  induction pieces generalizing before with
  | nil => rfl
  | cons p pieces ih =>
    have hp : meaning (Symbol.text p.word) = wordMeaning p.head.scalar p.tail := by
      rw [meaning, hw p List.mem_cons_self]
      rfl
    rw [tokens, List.map_cons, List.map_cons, List.map_cons, ih fun q hq => hw q (List.mem_cons_of_mem _ hq), hp]
    rfl

end Piece

/-- The tokens of words with blanks between them are the meanings of the words. -/
theorem tokenize_spread (file : Bytes) {words gaps : List Bytes} (hw : ∀ w ∈ words, isWord w = true)
    (h : Spread words gaps) :
    (tokenize file (woven gaps words)).map Token.face = words.map meaning := by
  obtain ⟨hlen, hblank, hapart⟩ := h
  rcases List.eq_nil_or_concat gaps with rfl | ⟨front, gap, rfl⟩
  · cases hlen
  have hfront : front.length = words.length := by simpa using hlen
  have hinner : ∀ i, front[i + 1]? ≠ some [] := by
    intro i hi
    have hlt := (List.getElem?_eq_some_iff.1 hi).1
    apply hapart (i + 1) (by omega) (by omega)
    rw [List.concat_eq_append, List.getElem?_append_left hlt, hi]
  obtain ⟨pieces, hlaid, hgenuine, hgaps, hwords⟩ := Piece.exists_laid_words hw hfront
    (fun g hg => hblank g (by simp [hg])) hinner (hblank gap (by simp))
  have hwoven : woven (front.concat gap) words =
      Symbol.text (pieces.flatMap Piece.symbols ++ Utf8.symbols gap) := by
    rw [← Piece.woven_pieces, hgaps, hwords, List.concat_eq_append, Symbol.text, Utf8.flatMap_bytes_symbols]
  rw [hwoven, tokenize_eq, hgenuine, cut_of_laid hlaid, ← hwords]
  exact Piece.map_meaning_tokens (fun p hp => Piece.genuine_word hgenuine hp) []

/-! ## Names and numerals -/

theorem exists_char_of_lt {b : UInt8} (h : b.toNat < 0x80) : ∃ c : Char, c.toNat = b.toNat ∧ Utf8.encode c = [b] := by
  have hc : (Char.ofNat b.toNat).toNat = b.toNat := Utf8.toNat_ofNat (Or.inl (by omega))
  refine ⟨Char.ofNat b.toNat, hc, ?_⟩
  rw [encode_of_lt (by omega), hc, Utf8.toUInt8_eq b rfl]

/-- A class of bytes below 128 becomes a class of characters. -/
theorem exists_chars_of_all {p : Char → Bool} {q : UInt8 → Bool} {w : Bytes}
    (hq : ∀ b, q b = true → b.toNat < 0x80 ∧ ∀ c : Char, c.toNat = b.toNat → p c = true) (h : ∀ b ∈ w, q b = true) :
    ∃ cs, w = encoded cs ∧ ∀ c ∈ cs, p c = true := by
  induction w with
  | nil => exact ⟨[], rfl, by simp⟩
  | cons b w ih =>
    obtain ⟨cs, rfl, hcs⟩ := ih fun a ha => h a (List.mem_cons_of_mem _ ha)
    obtain ⟨hb, hp⟩ := hq b (h b List.mem_cons_self)
    obtain ⟨c, hc, he⟩ := exists_char_of_lt hb
    refine ⟨c :: cs, by simp [encoded, he], ?_⟩
    intro a ha
    rcases List.mem_cons.1 ha with rfl | ha
    · exact hp _ hc
    · exact hcs a ha

theorem isDigit_of_isDigitByte {b : UInt8} (h : isDigitByte b = true) :
    b.toNat < 0x80 ∧ ∀ c : Char, c.toNat = b.toNat → isDigit c = true := by
  simp only [isDigitByte, Bool.and_eq_true, decide_eq_true_eq, UInt8.le_iff_toNat_le, UInt8.reduceToNat] at h
  refine ⟨by omega, ?_⟩
  intro c hc
  apply isDigit_iff.2
  omega

theorem isWordStart_of_isNameStart {b : UInt8} (h : isNameStart b = true) :
    b.toNat < 0x80 ∧ ∀ c : Char, c.toNat = b.toNat → isWordStart c = true := by
  simp only [isNameStart, Bool.or_eq_true, Bool.and_eq_true, beq_iff_eq, decide_eq_true_eq, UInt8.le_iff_toNat_le,
    ← UInt8.toNat_inj, UInt8.reduceToNat] at h
  refine ⟨by omega, ?_⟩
  intro c hc
  apply isWordStart_iff.2
  omega

theorem isWordPart_of_isNamePart {b : UInt8} (h : isNamePart b = true) :
    b.toNat < 0x80 ∧ ∀ c : Char, c.toNat = b.toNat → isWordPart c = true := by
  rcases Bool.or_eq_true_iff.1 h with hs | hd
  · obtain ⟨hb, hc⟩ := isWordStart_of_isNameStart hs
    exact ⟨hb, fun c h => Bool.or_eq_true_iff.2 (.inl (hc c h))⟩
  · obtain ⟨hb, hc⟩ := isDigit_of_isDigitByte hd
    exact ⟨hb, fun c h => Bool.or_eq_true_iff.2 (.inr (hc c h))⟩

/-- What goes on with a word is no operator, no quote and no blank. -/
theorem plain_of_isWordPart {c : Char} (h : isWordPart c = true) :
    operator? c = none ∧ c ≠ '"' ∧ Symbol.blank (.char c) = false := by
  refine ⟨?_, ?_, ?_⟩
  · unfold operator?
    split
    all_goals first
      | rfl
      | exact absurd h (by decide)
  · rintro rfl
    exact absurd h (by decide)
  · apply Bool.eq_false_iff.2
    intro hb
    have hw : isWordPart c = false := isWordPart_of_blank hb
    rw [hw] at h
    cases h

theorem symbols_encoded (cs : List Char) : Utf8.symbols (encoded cs) = cs.map .char := by
  have h := Utf8.symbols_chars_append cs []
  rwa [List.append_nil, Utf8.symbols_nil, List.append_nil] at h

@[simp] theorem map_scalar_char (cs : List Char) : cs.map (Symbol.scalar ∘ Symbol.char) = cs :=
  List.map_id cs

/-- Characters of one class that has no blank are a word, if they are read by their class. -/
theorem isWord_of_class {p : Char → Bool} {c : Char} {cs : List Char} (hc : isWordPart c = true)
    (hs : ∀ symbols, splitWord c symbols = (symbols.takeWhile (p ·.scalar), symbols.dropWhile (p ·.scalar)))
    (hp : ∀ a ∈ cs, p a = true) : isWord (encoded (c :: cs)) = true := by
  obtain ⟨_, hq, hb⟩ := plain_of_isWordPart hc
  apply isWord_iff.2
  refine ⟨.char c, cs.map .char, symbols_encoded (c :: cs), hb, ?_, fun h => absurd h hq⟩
  have hspan := @span_append_iff _ (fun r : Symbol => p r.scalar) (cs.map .char) []
  rw [List.append_nil] at hspan
  refine (hs _).trans (hspan.2 ⟨?_, by simp⟩)
  intro r hr
  obtain ⟨a, ha, rfl⟩ := List.mem_map.1 hr
  exact hp a ha

theorem exists_chars_of_isName {name : Bytes} (h : IsName name) :
    ∃ c cs, name = encoded (c :: cs) ∧ isWordStart c = true ∧ ∀ a ∈ cs, isWordPart a = true := by
  obtain ⟨b, rest, rfl, hb, hr⟩ := h
  obtain ⟨cs, rfl, hcs⟩ := exists_chars_of_all (fun _ => isWordPart_of_isNamePart) hr
  obtain ⟨hlt, hstart⟩ := isWordStart_of_isNameStart hb
  obtain ⟨c, hc, he⟩ := exists_char_of_lt hlt
  exact ⟨c, cs, by simp [encoded, he], hstart c hc, hcs⟩

theorem isDigit_of_isWordStart {c : Char} (h : isWordStart c = true) : isDigit c = false := by
  apply Bool.eq_false_iff.2
  intro hd
  have h₁ := isWordStart_iff.1 h
  have h₂ := isDigit_iff.1 hd
  omega

theorem isWord_name {name : Bytes} (h : IsName name) : isWord name = true := by
  obtain ⟨c, cs, rfl, hc, hcs⟩ := exists_chars_of_isName h
  have hpart : isWordPart c = true := Bool.or_eq_true_iff.2 (.inl hc)
  obtain ⟨ho, hq, _⟩ := plain_of_isWordPart hpart
  refine isWord_of_class hpart ?_ hcs
  intro symbols
  simp [splitWord, ho, hq, isDigit_of_isWordStart hc, hc]

theorem meaning_name {name : Bytes} (h : IsName name) : meaning name = (Kind.ofWord name, name) := by
  obtain ⟨c, cs, rfl, hc, hcs⟩ := exists_chars_of_isName h
  obtain ⟨ho, hq, _⟩ := plain_of_isWordPart (Bool.or_eq_true_iff.2 (.inl hc))
  rw [meaning, symbols_encoded, List.map_cons]
  simp [wordMeaning, Symbol.scalar, ho, hq, isDigit_of_isWordStart hc, hc]

namespace Integer

theorem magnitude_append {a b : Bytes} {n m : Nat} (h : magnitude n a = .value m) :
    magnitude n (a ++ b) = magnitude m b := by
  fun_induction magnitude n a with
  | case1 n => cases h; rfl
  | case2 n c rest hd k hk ih =>
    rw [List.cons_append, magnitude, if_pos hd, if_pos hk]
    exact ih h
  | case3 => cases h
  | case4 => cases h

theorem magnitude_digitByte {n d : Nat} (hd : d < 10) (h : n * 10 + d < 0x10000000000000000) :
    magnitude n [digitByte d] = .value (n * 10 + d) := by
  have hb : (digitByte d).toNat = 0x30 + d := Utf8.toNat_toUInt8 (by omega)
  rw [magnitude, if_pos (isDigitByte_digitByte hd), hb, Nat.add_sub_cancel_left, if_pos h, magnitude]

/-- The digits of a number are worth the number. -/
theorem magnitude_decimal {n : Nat} (h : n < 0x10000000000000000) : magnitude 0 (decimal n) = .value n := by
  induction n using Nat.strongRecOn with
  | ind n ih =>
    rw [decimal]
    split
    · next hn => simpa using @magnitude_digitByte 0 n hn (by omega)
    · next hn =>
      rw [magnitude_append (ih (n / 10) (by omega) (by omega)), magnitude_digitByte (by omega) (by omega)]
      congr 1
      omega

/-- A number that fits is read from its digits. -/
theorem read_decimal {n : Nat} (h : (n : Int) ≤ greatest) : read (decimal n) = .ok (n : Int) := by
  obtain ⟨hne, hd⟩ := isNumeral_decimal n
  obtain ⟨b, rest, hb⟩ := List.exists_cons_of_ne_nil hne
  have hm := @magnitude_decimal n (by rw [greatest] at h; omega)
  rw [hb] at hd hm ⊢
  have hrange : least ≤ (n : Int) ∧ (n : Int) ≤ greatest := ⟨by rw [least]; omega, h⟩
  simp only [read, splitSign_of_digit (hd b List.mem_cons_self), hm, List.cons_ne_nil, Bool.false_eq_true, if_false,
    if_pos hrange]

end Integer

theorem signed_natCast (n : Nat) : signed (n : Int) = decimal n := by
  rw [signed, if_neg (by omega), Int.natAbs_natCast]

theorem exists_chars_of_isNumeral {text : Bytes} (h : IsNumeral text) :
    ∃ c cs, text = encoded (c :: cs) ∧ isDigit c = true ∧ ∀ a ∈ cs, isDigit a = true := by
  obtain ⟨cs, rfl, hcs⟩ := exists_chars_of_all (fun _ => isDigit_of_isDigitByte) h.2
  cases cs with
  | nil => exact absurd rfl h.1
  | cons c cs => exact ⟨c, cs, rfl, hcs c List.mem_cons_self, fun a ha => hcs a (List.mem_cons_of_mem _ ha)⟩

theorem isWord_numeral {text : Bytes} (h : IsNumeral text) : isWord text = true := by
  obtain ⟨c, cs, rfl, hc, hcs⟩ := exists_chars_of_isNumeral h
  have hpart : isWordPart c = true := Bool.or_eq_true_iff.2 (.inr hc)
  obtain ⟨ho, hq, _⟩ := plain_of_isWordPart hpart
  refine isWord_of_class hpart ?_ hcs
  intro symbols
  simp [splitWord, ho, hq, hc]

theorem meaning_decimal {n : Nat} (h : (n : Int) ≤ Integer.greatest) : meaning (decimal n) = (.number, decimal n) := by
  have hread := Integer.read_decimal h
  have hsigned := signed_natCast n
  obtain ⟨c, cs, he, hc, hcs⟩ := exists_chars_of_isNumeral (isNumeral_decimal n)
  obtain ⟨ho, hq, _⟩ := plain_of_isWordPart (Bool.or_eq_true_iff.2 (.inr hc))
  rw [he] at hread hsigned ⊢
  rw [meaning, symbols_encoded, List.map_cons]
  simp [wordMeaning, Symbol.scalar, ho, hq, hc, hread, hsigned]

/-! ## Strings -/

/-- A character in a string, with a backslash before it if it is a quote or a backslash. -/
def guarded (c : Char) : List Char :=
  if c = '"' ∨ c = '\\' then ['\\', c] else [c]

/-- The source of a string: its characters between quotes. -/
def stringSource (text : Bytes) : Bytes :=
  encoded (['"'] ++ ((Utf8.symbols text).map Symbol.scalar).flatMap guarded ++ ['"'])

/-- The rest of a string that is written ends with the closing quote and stands for its characters. -/
theorem splitString_guarded (cs : List Char) :
    let rest : List Symbol := (cs.flatMap guarded ++ ['"']).map .char
    splitString rest = (rest, []) ∧ closes rest = true ∧ stringValue rest = cs := by
  induction cs with
  | nil => decide
  | cons c cs ih =>
    intro rest
    dsimp only at ih
    obtain ⟨e, more, he⟩ : ∃ e more, ((cs.flatMap guarded ++ ['"']).map Symbol.char) = e :: more := by
      apply List.exists_cons_of_ne_nil
      simp
    have hrest : rest = (guarded c).map .char ++ e :: more := by
      rw [← he]
      simp [rest]
    rw [he] at ih
    obtain ⟨hsplit, hclosed, hvalue⟩ := ih
    rw [hrest]
    by_cases hg : c = '"' ∨ c = '\\'
    · have hesc : escape? c = some c := by
        rcases hg with rfl | rfl <;> rfl
      simp [guarded, hg, splitString, closes, stringValue, Symbol.scalar, hesc, hsplit, hclosed, hvalue]
    · have hplain := not_or.1 hg
      simp [guarded, hplain.1, hplain.2, splitString, closes, stringValue, Symbol.scalar, hsplit, hclosed, hvalue]

/-- A text without stray bytes is a list of characters. -/
theorem exists_chars_of_valid {text : Bytes} (h : Utf8.valid text = true) :
    ∃ cs : List Char, text = encoded cs ∧ Utf8.symbols text = cs.map .char := by
  suffices hs : ∃ cs : List Char, Utf8.symbols text = cs.map .char by
    obtain ⟨cs, hcs⟩ := hs
    refine ⟨cs, ?_, hcs⟩
    rw [← Utf8.flatMap_bytes_symbols text, hcs, List.flatMap_map]
    rfl
  unfold Utf8.valid at h
  generalize Utf8.symbols text = symbols at h
  induction symbols with
  | nil => exact ⟨[], rfl⟩
  | cons r symbols ih =>
    rw [List.all_cons, Bool.and_eq_true] at h
    obtain ⟨cs, rfl⟩ := ih h.2
    cases r with
    | char c => exact ⟨c :: cs, rfl⟩
    | stray b => exact absurd h.1 (by simp)

section Sources

variable {text : Bytes} (h : Utf8.valid text = true)

include h

theorem symbols_stringSource : ∃ cs, text = encoded cs ∧
    Utf8.symbols (stringSource text) = .char '"' :: (cs.flatMap guarded ++ ['"']).map .char := by
  obtain ⟨cs, ht, hcs⟩ := exists_chars_of_valid h
  refine ⟨cs, ht, ?_⟩
  rw [stringSource, hcs, List.map_map, map_scalar_char, symbols_encoded]
  rfl

theorem isWord_stringSource : isWord (stringSource text) = true := by
  obtain ⟨cs, rfl, hs⟩ := symbols_stringSource h
  obtain ⟨hsplit, hclosed, _⟩ := splitString_guarded cs
  exact isWord_iff.2 ⟨_, _, hs, rfl, hsplit, fun _ => hclosed⟩

theorem meaning_stringSource : meaning (stringSource text) = (.string, text) := by
  obtain ⟨cs, rfl, hs⟩ := symbols_stringSource h
  obtain ⟨_, _, hvalue⟩ := splitString_guarded cs
  rw [meaning, hs]
  show (Kind.string, encoded (stringValue _)) = _
  rw [hvalue]

end Sources

end CallLang
