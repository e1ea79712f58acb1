import CallLang.Proofs.Token.Scanning

/-!
# The spans of tokens

The span of a token are the bytes from its offset on, as many as its length says. The spans of the tokens of a text and
the gaps before, between and behind them make up the text.

- `Piece.spans_tokens`, `Piece.gaps_tokens`: spans are the words of the cut, gaps the blanks before them;
- `Piece.covered_or_blank`: a byte is covered by a token or belongs to a blank symbol;
- `tokenize_partition` puts them together for a whole text.

All of them go over the pieces of a cut that has some symbols before it.
-/

namespace CallLang

/-! ## Spans and gaps -/

namespace Token

/-- The offset of the first byte of a token. -/
def start (t : Token) : Nat :=
  (t.place.elim 0 Location.offset).toNat

/-- The offset behind the last byte of a token. -/
def stop (t : Token) : Nat :=
  t.start + t.length.toNat

end Token

/-- The texts that no token covers: before the first token, between neighbours, and behind the last one. -/
def gaps (text : Bytes) (offset : Nat) : List Token → List Bytes
  | [] => [text.drop offset]
  | t :: rest => text.extract offset t.start :: gaps text t.stop rest

/-- The texts that the tokens cover. -/
def spans (text : Bytes) (tokens : List Token) : List Bytes :=
  tokens.map fun t => text.extract t.start t.stop

/-- Gaps and spans in turn, from the first gap to the last. -/
def woven : List Bytes → List Bytes → Bytes
  | gap :: gaps, span :: spans => gap ++ (span ++ woven gaps spans)
  | gaps, _ => gaps.flatten

/-- The byte at an offset belongs to a blank character. -/
def InBlank (text : Bytes) (i : Nat) : Prop :=
  ∃ before r after, Utf8.symbols text = before ++ r :: after ∧ r.blank = true ∧
    (Symbol.text before).length ≤ i ∧ i < (Symbol.text (before ++ [r])).length

theorem extract_middle {text a b c : Bytes} (h : text = a ++ (b ++ c)) : text.extract a.length (a ++ b).length = b := by
  subst h
  simp

/-! ## The tokens of pieces -/

namespace Piece

variable {file : Bytes} {before last : List Symbol} {p : Piece} {pieces : List Piece}

theorem start_token : (p.token file before).start = (Symbol.text (before ++ p.gap)).length := by
  simp only [Token.start, token, Location.ofPosition, Option.elim_some, Position.offset_past, Int.toNat_natCast]

theorem stop_token : (p.token file before).stop = (Symbol.text (before ++ p.symbols)).length := by
  rw [Token.stop, start_token]
  simp [token, symbols, Nat.add_assoc]

theorem length_token_pos : 0 < (p.token file before).length := by
  have := List.length_pos_iff.2 p.head.bytes_ne_nil
  simp only [token, word, Symbol.text_cons, List.length_append]
  omega

/-- The tokens behind some symbols start behind them. -/
theorem start_ge_of_mem {t : Token} (h : t ∈ tokens file before pieces) :
    (Symbol.text before).length ≤ t.start := by
  induction pieces generalizing before with
  | nil => cases h
  | cons p pieces ih =>
    rcases List.mem_cons.1 h with rfl | h
    · rw [start_token]
      simp
    · have := ih h
      simp only [Symbol.text_append, List.length_append] at this
      omega

/-- The tokens behind some symbols end before what follows their pieces. -/
theorem stop_le_of_mem {t : Token} (h : t ∈ tokens file before pieces) :
    t.stop ≤ (Symbol.text (before ++ pieces.flatMap symbols)).length := by
  induction pieces generalizing before with
  | nil => cases h
  | cons p pieces ih =>
    rw [List.flatMap_cons, ← List.append_assoc]
    rcases List.mem_cons.1 h with rfl | h
    · rw [stop_token]
      simp
    · exact ih h

/-- Each token has a place and covers some bytes. -/
theorem place_of_mem {t : Token} (h : t ∈ tokens file before pieces) :
    (∃ l, t.place = some l ∧ l.file = file ∧ l.offset = t.start) ∧ 0 < t.length := by
  induction pieces generalizing before with
  | nil => cases h
  | cons p pieces ih =>
    rcases List.mem_cons.1 h with rfl | h
    · refine ⟨⟨_, rfl, rfl, ?_⟩, length_token_pos⟩
      rw [start_token]
      simp only [Location.ofPosition, Position.offset_past]
    · exact ih h

/-- A token ends before the next one starts. -/
theorem pairwise_tokens (file : Bytes) (before : List Symbol) (pieces : List Piece) :
    (tokens file before pieces).Pairwise fun t u => t.stop ≤ u.start := by
  induction pieces generalizing before with
  | nil => exact .nil
  | cons p pieces ih =>
    refine .cons ?_ (ih _)
    intro u hu
    rw [stop_token]
    exact start_ge_of_mem hu

section Texts

variable {text : Bytes} (ht : text = Symbol.text (before ++ pieces.flatMap symbols ++ last))

include ht

/-- The gaps between the tokens are the gaps of the pieces. -/
theorem gaps_tokens (file : Bytes) : gaps text (Symbol.text before).length (tokens file before pieces) =
    pieces.map (fun p => Symbol.text p.gap) ++ [Symbol.text last] := by
  induction pieces generalizing before with
  | nil => simp [tokens, gaps, ht]
  | cons p pieces ih =>
    have hnext := @ih (before ++ p.symbols) (by simpa using ht)
    have hgap : text.extract (Symbol.text before).length (Symbol.text (before ++ p.gap)).length = Symbol.text p.gap := by
      rw [Symbol.text_append before]
      exact extract_middle (c := Symbol.text (p.word ++ pieces.flatMap symbols ++ last)) (by simp [ht, symbols])
    rw [tokens, gaps, stop_token, hnext, start_token, hgap]
    rfl

/-- The spans of the tokens are the words of the pieces. -/
theorem spans_tokens (file : Bytes) : spans text (tokens file before pieces) = pieces.map fun p => Symbol.text p.word := by
  induction pieces generalizing before with
  | nil => rfl
  | cons p pieces ih =>
    have hnext := @ih (before ++ p.symbols) (by simpa using ht)
    have hspan : text.extract (Symbol.text (before ++ p.gap)).length (Symbol.text (before ++ p.symbols)).length =
        Symbol.text p.word := by
      rw [symbols, ← List.append_assoc, Symbol.text_append (before ++ p.gap)]
      exact extract_middle (c := Symbol.text (pieces.flatMap symbols ++ last)) (by simp [ht, symbols])
    rw [spans] at hnext ⊢
    rw [tokens, List.map_cons, List.map_cons, start_token, stop_token, hspan, hnext]

end Texts

/-- The gaps and the words of pieces in turn are the text of the pieces. -/
theorem woven_pieces (pieces : List Piece) (last : List Symbol) :
    woven (pieces.map (fun p => Symbol.text p.gap) ++ [Symbol.text last]) (pieces.map fun p => Symbol.text p.word) =
      Symbol.text (pieces.flatMap symbols ++ last) := by
  induction pieces with
  | nil => simp [woven]
  | cons p pieces ih =>
    simp only [List.map_cons, List.cons_append, woven, ih]
    simp [symbols]

/-! ## Bytes and symbols -/

/-- Each byte of a list of symbols belongs to one of them. -/
theorem exists_symbol_at {symbols : List Symbol} {i : Nat} (h : i < (Symbol.text symbols).length) :
    ∃ before r after, symbols = before ++ r :: after ∧ (Symbol.text before).length ≤ i ∧
      i < (Symbol.text (before ++ [r])).length := by
  induction symbols generalizing i with
  | nil => simp at h
  | cons r rest ih =>
    by_cases hr : i < r.bytes.length
    · exact ⟨[], r, rest, rfl, by simp, by simpa using hr⟩
    · have hi : i - r.bytes.length < (Symbol.text rest).length := by
        simp only [Symbol.text_cons, List.length_append] at h
        omega
      obtain ⟨before, r', after, rfl, hl, hu⟩ := ih hi
      refine ⟨r :: before, r', after, rfl, ?_, ?_⟩
      · simp only [Symbol.text_cons, List.length_append]
        omega
      · simp only [List.cons_append, Symbol.text_cons, List.length_append] at hu ⊢
        omega

/-- Each byte behind `before` is covered by a token or belongs to a blank symbol. -/
theorem covered_or_blank (file : Bytes) (hs : ∀ p ∈ pieces, p.Solid) (hl : ∀ r ∈ last, r.blank = true) {i : Nat}
    (h₁ : (Symbol.text before).length ≤ i)
    (h₂ : i < (Symbol.text (before ++ pieces.flatMap symbols ++ last)).length) :
    (∃ t ∈ tokens file before pieces, t.start ≤ i ∧ i < t.stop) ∨
    ∃ front r back, before ++ pieces.flatMap symbols ++ last = front ++ r :: back ∧ r.blank = true ∧
      (Symbol.text front).length ≤ i ∧ i < (Symbol.text (front ++ [r])).length := by
  -- a byte of a blank stretch belongs to one of its symbols
  have blank (front stretch back : List Symbol) (hb : ∀ r ∈ stretch, r.blank = true)
      (hlow : (Symbol.text front).length ≤ i) (hup : i < (Symbol.text (front ++ stretch)).length) :
      ∃ a r b, front ++ stretch ++ back = a ++ r :: b ∧ r.blank = true ∧
        (Symbol.text a).length ≤ i ∧ i < (Symbol.text (a ++ [r])).length := by
    have hi : i - (Symbol.text front).length < (Symbol.text stretch).length := by
      simp only [Symbol.text_append, List.length_append] at hup
      omega
    obtain ⟨a, r, b, rfl, hlow', hup'⟩ := exists_symbol_at hi
    refine ⟨front ++ a, r, b ++ back, by simp, hb r (by simp), ?_, ?_⟩
    · simp only [Symbol.text_append, List.length_append]
      omega
    · simp only [Symbol.text_append, List.length_append] at hup' ⊢
      omega
  induction pieces generalizing before with
  | nil =>
    have := blank before last [] hl h₁ (by simpa using h₂)
    exact .inr (by simpa using this)
  | cons p pieces ih =>
    have hp := hs p List.mem_cons_self
    by_cases hg : i < (Symbol.text (before ++ p.gap)).length
    · have := blank before p.gap (p.word ++ (pieces.flatMap symbols ++ last)) hp.blank h₁ hg
      exact .inr (by simpa [symbols] using this)
    by_cases hw : i < (Symbol.text (before ++ p.symbols)).length
    · refine .inl ⟨p.token file before, List.mem_cons_self, ?_, ?_⟩
      · rw [start_token]
        omega
      · rw [stop_token]
        exact hw
    · have hlow : (Symbol.text (before ++ p.symbols)).length ≤ i := by omega
      rcases ih (fun q hq => hs q (List.mem_cons_of_mem _ hq)) hlow (by simpa using h₂) with ⟨t, ht, hi⟩ | hb
      · exact .inl ⟨t, List.mem_cons_of_mem _ ht, hi⟩
      · exact .inr (by simpa using hb)

end Piece

/-! ## Whole texts -/

/-- Tokens whose spans follow each other share no byte. -/
theorem eq_of_overlap {tokens : List Token} (h : tokens.Pairwise fun t u => t.stop ≤ u.start) {t u : Token} {i : Nat}
    (ht : t ∈ tokens) (hu : u ∈ tokens) (hti : t.start ≤ i ∧ i < t.stop) (hui : u.start ≤ i ∧ i < u.stop) : t = u := by
  induction tokens with
  | nil => cases ht
  | cons a rest ih =>
    obtain ⟨ha, hr⟩ := List.pairwise_cons.1 h
    rcases List.mem_cons.1 ht with rfl | ht'
    · rcases List.mem_cons.1 hu with rfl | hu'
      · rfl
      · have := ha u hu'
        omega
    · rcases List.mem_cons.1 hu with rfl | hu'
      · have := ha t ht'
        omega
      · exact ih hr ht' hu'

/-- **The tokens of a text partition it.** Each token covers some bytes of the text, its span ends before the next one
starts, and every gap is blank. So a byte that belongs to no blank character lies in one span, and gaps and spans in
turn are the text. -/
theorem tokenize_partition (file text : Bytes) :
    (∀ t ∈ tokenize file text,
      (∃ l, t.place = some l ∧ l.file = file ∧ l.offset = t.start) ∧ 0 < t.length ∧ t.stop ≤ text.length) ∧
    ((tokenize file text).Pairwise fun t u => t.stop ≤ u.start) ∧
    (∀ gap ∈ gaps text 0 (tokenize file text), Blank gap) ∧
    (∀ i < text.length, ¬ InBlank text i → ∃! t, t ∈ tokenize file text ∧ t.start ≤ i ∧ i < t.stop) ∧
    woven (gaps text 0 (tokenize file text)) (spans text (tokenize file text)) = text := by
  rw [tokenize_eq]
  obtain ⟨hsolid, hlast⟩ := solid_cut (Utf8.symbols text)
  have hflat := flatten_cut (Utf8.symbols text)
  generalize (cut (Utf8.symbols text)).1 = pieces at hsolid hflat ⊢
  generalize (cut (Utf8.symbols text)).2 = last at hlast hflat
  have htext : text = Symbol.text ([] ++ pieces.flatMap Piece.symbols ++ last) := by
    rw [List.nil_append, hflat]
    exact (Utf8.flatMap_bytes_symbols text).symm
  have hpair := Piece.pairwise_tokens file [] pieces
  have hgaps := Piece.gaps_tokens htext file
  have hspans := Piece.spans_tokens htext file
  refine ⟨?_, hpair, ?_, ?_, ?_⟩
  · intro t ht
    obtain ⟨hplace, hpos⟩ := Piece.place_of_mem ht
    have hstop := Piece.stop_le_of_mem ht
    refine ⟨hplace, hpos, hstop.trans ?_⟩
    rw [htext]
    simp
  · intro gap hgap
    rw [show (0 : Nat) = (Symbol.text []).length from rfl, hgaps] at hgap
    rcases List.mem_append.1 hgap with hgap | hgap
    · obtain ⟨p, hp, rfl⟩ := List.mem_map.1 hgap
      exact blank_flatMap (hsolid p hp).blank
    · rw [List.mem_singleton.1 hgap]
      exact blank_flatMap hlast
  · intro i hi hb
    rw [htext] at hi
    rcases Piece.covered_or_blank file hsolid hlast (Nat.zero_le i) hi with ⟨t, ht, hti⟩ | ⟨front, r, back, he, hr⟩
    · exact ⟨t, ⟨ht, hti⟩, fun u hu => eq_of_overlap hpair hu.1 ht hu.2 hti⟩
    · rw [List.nil_append, hflat] at he
      exact absurd ⟨front, r, back, he, hr⟩ hb
  · rw [show (0 : Nat) = (Symbol.text []).length from rfl, hgaps, hspans, Piece.woven_pieces, htext]
    rfl

/-- A blank, a word, a parenthesis, and a string that has a stray byte in it and no end. -/
theorem tokenize_partition_stray :
    let text : Bytes := ascii " f(\"" ++ [0xFF]
    ¬ InBlank text 4 ∧ (∃! t, t ∈ tokenize [] text ∧ t.start ≤ 4 ∧ 4 < t.stop) ∧
    (tokenize [] text).map (fun t => (t.start, t.stop)) = [(1, 2), (2, 3), (3, 5)] ∧
    gaps text 0 (tokenize [] text) = [ascii " ", [], [], []] ∧ Blank (ascii " ") := by
  intro text
  obtain ⟨_, _, hblank, hone, _⟩ := tokenize_partition [] text
  have hs : Utf8.symbols text = [.char ' ', .char 'f', .char '(', .char '"', .stray 0xFF] := by decide +kernel
  have hg : gaps text 0 (tokenize [] text) = [ascii " ", [], [], []] := by decide +kernel
  have hb : ¬ InBlank text 4 := by
    rintro ⟨before, r, after, he, hr, _, hi⟩
    rw [hs] at he
    cases before with
    | nil =>
      cases he
      exact absurd hi (by decide)
    | cons b before =>
      have hmem : r ∈ [Symbol.char 'f', .char '(', .char '"', .stray 0xFF] := by
        rw [(List.cons.inj he).2]
        simp
      simp only [List.mem_cons, List.not_mem_nil, or_false] at hmem
      rcases hmem with rfl | rfl | rfl | rfl <;> exact absurd hr (by decide)
  exact ⟨hb, hone 4 (by decide) hb, by decide +kernel, hg, hblank _ (by rw [hg]; simp)⟩

end CallLang
