import CallLang.Proofs.Source.Lines
import CallLang.Proofs.Token.Words

/-!
# Tokens and the bytes they are read from

Each token of a text covers the word of a piece (`Token.Covers`, `exists_covers`). Its kind and value are what its bytes
mean (`Covers.meaning_span`), and but for literals and what is unknown its value is these bytes (`Covers.span_eq_value`).
Digits, letters and underscores are single bytes, so a run of such characters is a run of such bytes (`SameClass.run`):
digits are all the digits that stand there (`Covers.digits`, `Covers.number`), and a word is all that goes on with it
(`Covers.name`).
-/

namespace CallLang

/-- The bytes that a token covers. -/
def Token.span (text : Bytes) (t : Token) : Bytes :=
  text.extract t.start t.stop

/-- A token covers the word of a piece in a text, and `rest` is what follows it. -/
structure Token.Covers (text : Bytes) (t : Token) (p : Piece) (rest : List Symbol) : Prop where
  face_eq : t.face = wordMeaning p.head.scalar p.tail
  span_eq : t.span text = Symbol.text p.word
  drop_eq : text.drop t.start = Symbol.text (p.word ++ rest)
  ends : p.Ends rest
  genuine : Symbol.Genuine (p.word ++ rest)

namespace Piece

variable {file text : Bytes} {before last : List Symbol} {pieces : List Piece}

theorem covers_token {p : Piece} {rest : List Symbol} (h : Utf8.symbols text = before ++ (p.symbols ++ rest))
    (he : p.Ends rest) : (p.token file before).Covers text p rest := by
  have htext : text = Symbol.text (before ++ p.gap) ++ (Symbol.text p.word ++ Symbol.text rest) := by
    rw [← Utf8.flatMap_bytes_symbols text, h]
    simp [Symbol.text, symbols]
  have hstop : Symbol.text (before ++ p.symbols) = Symbol.text (before ++ p.gap) ++ Symbol.text p.word := by
    simp [symbols]
  refine ⟨rfl, ?_, ?_, he, ?_⟩
  · rw [Token.span, start_token, stop_token, hstop]
    exact extract_middle htext
  · rw [start_token, Symbol.text_append p.word, htext]
    exact List.drop_left
  · have hall := Symbol.genuine_symbols text
    rw [h, symbols, List.append_assoc, ← List.append_assoc] at hall
    exact hall.of_append

/-- Each token of the pieces of a cut covers the word of one of them. -/
theorem exists_covers_of_mem {t : Token} (hl : Laid pieces last) (ht : t ∈ tokens file before pieces)
    (h : Utf8.symbols text = before ++ (pieces.flatMap symbols ++ last)) : ∃ p rest, t.Covers text p rest := by
  induction pieces generalizing before with
  | nil => cases ht
  | cons p pieces ih =>
    obtain ⟨_, hends, hrest⟩ := hl
    rw [List.flatMap_cons, List.append_assoc] at h
    rcases List.mem_cons.1 ht with rfl | ht
    · exact ⟨p, _, covers_token h hends⟩
    · exact ih hrest ht (by rw [h, List.append_assoc])

end Piece

/-- Each token of a text covers a word of it. -/
theorem exists_covers {file text : Bytes} {t : Token} (h : t ∈ tokenize file text) :
    ∃ p rest, t.Covers text p rest := by
  rw [tokenize_eq] at h
  exact Piece.exists_covers_of_mem (laid_cut _) h (flatten_cut _).symm

section Places

variable {file text : Bytes} {t : Token}

/-- The place of a token of a text says where it starts. -/
theorem place_of_mem_tokenize (h : t ∈ tokenize file text) :
    ∃ l, t.place = some l ∧ l.file = file ∧ l.offset = t.start := by
  rw [tokenize_eq] at h
  exact (Piece.place_of_mem h).1

theorem start_lt_stop_of_mem_tokenize (h : t ∈ tokenize file text) : t.start < t.stop := by
  rw [tokenize_eq] at h
  have hpos := (Piece.place_of_mem h).2
  rw [Token.stop]
  omega

/-- The tokens of a text stand one behind the other. -/
theorem pairwise_tokenize (file text : Bytes) : (tokenize file text).Pairwise fun t u => t.stop ≤ u.start := by
  rw [tokenize_eq]
  exact Piece.pairwise_tokens file [] _

end Places

/-- Symbols that are read as other characters than the one for stray bytes are written as these characters. -/
theorem Symbol.text_eq_encoded {symbols : List Symbol} (h : ∀ r ∈ symbols, r.scalar ≠ Utf8.replacement) :
    Symbol.text symbols = encoded (symbols.map Symbol.scalar) := by
  induction symbols with
  | nil => rfl
  | cons r symbols ih =>
    have hr := h r List.mem_cons_self
    rw [Symbol.text_cons, ih fun q hq => h q (List.mem_cons_of_mem _ hq)]
    cases r with
    | char c => rfl
    | stray b => exact absurd rfl hr

theorem ne_replacement_of_operator {c : Char} (h : (operator? c).isSome = true) : c ≠ Utf8.replacement := by
  rintro rfl
  exact absurd h (by decide)

/-! ## Classes of characters and bytes -/

/-- A class of characters that are single bytes, and the class of these bytes. -/
structure SameClass (p : Char → Bool) (q : UInt8 → Bool) : Prop where
  byte : ∀ c, p c = true → ∃ b, Utf8.encode c = [b] ∧ q b = true
  char : ∀ b, q b = true → b.toNat < 0x80 ∧ ∀ c : Char, c.toNat = b.toNat → p c = true

theorem sameClass_digit : SameClass isDigit isDigitByte :=
  ⟨fun _ => encode_digit, fun _ => isDigit_of_isDigitByte⟩

theorem sameClass_wordStart : SameClass isWordStart isNameStart :=
  ⟨fun _ => encode_wordStart, fun _ => isWordStart_of_isNameStart⟩

theorem sameClass_wordPart : SameClass isWordPart isNamePart :=
  ⟨fun _ => encode_wordPart, fun _ => isWordPart_of_isNamePart⟩

namespace SameClass

variable {p : Char → Bool} {q : UInt8 → Bool} {r : Symbol} {front rest : List Symbol}

theorem ne_replacement (h : SameClass p q) {c : Char} (hc : p c = true) : c ≠ Utf8.replacement := by
  rintro rfl
  obtain ⟨b, hb, _⟩ := h.byte _ hc
  have hlen : (Utf8.encode Utf8.replacement).length = 1 := by rw [hb]; rfl
  exact absurd hlen (by decide)

/-- The first byte of a text is in the class if its first symbol is. -/
theorem head_iff (h : SameClass p q) (hg : Symbol.Genuine (r :: rest)) {b : UInt8} {bytes : Bytes}
    (hb : r.bytes = b :: bytes) : q b = true ↔ p r.scalar = true := by
  constructor
  · intro hq
    obtain ⟨hlt, hchar⟩ := h.char b hq
    obtain ⟨hr, _⟩ := Utf8.eq_char_of_decode (Symbol.genuine_cons.1 hg).1 (by rw [hb]; exact List.mem_cons_self) hlt
    rw [hr]
    exact hchar _ (Utf8.toNat_ofNat (.inl (by omega)))
  · intro hp
    obtain ⟨a, ha, hq⟩ := h.byte _ hp
    cases r with
    | stray x => exact absurd rfl (h.ne_replacement hp)
    | char c =>
      obtain ⟨rfl, _⟩ := List.cons.inj (hb.symm.trans ha)
      exact hq

/-- The bytes of symbols of the class are the bytes of the class up to the first symbol that is none of it. -/
theorem run (h : SameClass p q) (hg : Symbol.Genuine (front ++ rest)) (hf : ∀ r ∈ front, p r.scalar = true)
    (hr : ∀ r ∈ rest.head?, p r.scalar = false) :
    Symbol.text front = encoded (front.map Symbol.scalar) ∧ (∀ b ∈ Symbol.text front, q b = true) ∧
      (Symbol.text (front ++ rest)).takeWhile q = Symbol.text front := by
  have hfront : Symbol.text front = encoded (front.map Symbol.scalar) :=
    Symbol.text_eq_encoded fun r hr => h.ne_replacement (hf r hr)
  have hbytes : ∀ b ∈ Symbol.text front, q b = true := by
    rw [hfront]
    exact encoded_all h.byte (List.forall_mem_map.2 hf)
  have hstop : (Symbol.text rest).takeWhile q = [] := by
    cases rest with
    | nil => rfl
    | cons r rest =>
      obtain ⟨b, bytes, hb⟩ := List.exists_cons_of_ne_nil r.bytes_ne_nil
      rw [Symbol.text_cons, hb, List.cons_append, List.takeWhile_cons_of_neg]
      rw [h.head_iff hg.of_append hb, hr r rfl]
      decide
  refine ⟨hfront, hbytes, ?_⟩
  rw [Symbol.text_append, List.takeWhile_append_of_pos hbytes, hstop, List.append_nil]

end SameClass

/-! ## Words by their kinds -/

/-- A number starts with a digit and is what its digits are read as. -/
theorem wordMeaning_number {c : Char} {tail : List Symbol} {value : Bytes} (h : wordMeaning c tail = (.number, value)) :
    isDigit c = true ∧ ∃ n, Integer.read (encoded (c :: tail.map Symbol.scalar)) = .ok n ∧ value = signed n := by
  unfold wordMeaning at h
  split at h
  · next kind ho => exact absurd (congrArg Prod.fst h) (operator_ne ho).2
  · split at h
    · cases h
    · split at h
      · next hd =>
        dsimp only at h
        split at h
        · next n hn =>
          cases h
          exact ⟨hd, n, hn, rfl⟩
        · cases h
      · split at h
        · exact absurd (congrArg Prod.fst h) (ofWord_ne_number _)
        · cases h

/-- What is no literal and not unknown is an operator or a word, and has itself as its value. -/
theorem wordMeaning_plain {c : Char} {tail : List Symbol} {kind : Kind} {value : Bytes}
    (h : wordMeaning c tail = (kind, value)) (hk : kind ∉ [Kind.number, .string, .unknown]) :
    (operator? c = some kind ∧ value = encoded [c]) ∨
    (isWordStart c = true ∧ value = encoded (c :: tail.map Symbol.scalar) ∧ Kind.ofWord value = kind) := by
  unfold wordMeaning at h
  split at h
  · next k ho =>
    cases h
    exact .inl ⟨ho, rfl⟩
  · split at h
    · cases h
      exact absurd hk (by simp)
    · split at h
      · dsimp only at h
        split at h <;> cases h <;> exact absurd hk (by simp)
      · split at h
        · next hw =>
          cases h
          exact .inr ⟨hw, rfl, rfl⟩
        · cases h
          exact absurd hk (by simp)

namespace Piece.Ends

variable {p : Piece} {rest : List Symbol}

theorem of_digit (h : p.Ends rest) (hd : isDigit p.head.scalar = true) :
    (∀ r ∈ p.tail, isDigit r.scalar = true) ∧ ∀ r ∈ rest.head?, isDigit r.scalar = false := by
  obtain ⟨ho, hq, _⟩ := plain_of_isWordPart (Bool.or_eq_true_iff.2 (.inr hd))
  apply span_append_iff.1
  simpa [Ends, splitWord, ho, hq, hd] using h

theorem of_wordStart (h : p.Ends rest) (hw : isWordStart p.head.scalar = true) :
    (∀ r ∈ p.tail, isWordPart r.scalar = true) ∧ ∀ r ∈ rest.head?, isWordPart r.scalar = false := by
  obtain ⟨ho, hq, _⟩ := plain_of_isWordPart (Bool.or_eq_true_iff.2 (.inl hw))
  have hspan := @span_append_iff _ (fun r : Symbol => isWordPart r.scalar) p.tail rest
  apply hspan.1
  simpa [Ends, splitWord, ho, hq, isDigit_of_isWordStart hw, hw] using h

theorem of_operator (h : p.Ends rest) (ho : (operator? p.head.scalar).isSome = true) : p.tail = [] := by
  rw [Ends, splitWord, if_pos ho] at h
  exact (Prod.mk.inj h).1.symm

end Piece.Ends

namespace Token.Covers

variable {text : Bytes} {t : Token} {p : Piece} {rest : List Symbol}

/-- A token is what its bytes mean. -/
theorem meaning_span (h : t.Covers text p rest) : meaning (t.span text) = t.face := by
  rw [h.span_eq, meaning, h.genuine.front, h.face_eq]
  rfl

/-- Digits are all the digits that stand there. -/
theorem digits (h : t.Covers text p rest) (hd : isDigit p.head.scalar = true) :
    IsNumeral (t.span text) ∧ (text.drop t.start).takeWhile isDigitByte = t.span text ∧
      t.span text = encoded (p.head.scalar :: p.tail.map Symbol.scalar) := by
  obtain ⟨htail, hstop⟩ := h.ends.of_digit hd
  obtain ⟨htext, hbytes, hrun⟩ := sameClass_digit.run h.genuine (List.forall_mem_cons.2 ⟨hd, htail⟩) hstop
  rw [h.drop_eq, h.span_eq, hrun]
  refine ⟨⟨?_, hbytes⟩, rfl, htext⟩
  simp [Piece.word, p.head.bytes_ne_nil]

/-- A word is all that can go on with it where it stands. -/
theorem name (h : t.Covers text p rest) (hw : isWordStart p.head.scalar = true) :
    (text.drop t.start).takeWhile isNamePart = t.span text ∧
      t.span text = encoded (p.head.scalar :: p.tail.map Symbol.scalar) := by
  obtain ⟨htail, hstop⟩ := h.ends.of_wordStart hw
  have hword : ∀ r ∈ p.word, isWordPart r.scalar = true :=
    List.forall_mem_cons.2 ⟨Bool.or_eq_true_iff.2 (.inl hw), htail⟩
  obtain ⟨htext, _, hrun⟩ := sameClass_wordPart.run h.genuine hword hstop
  rw [h.drop_eq, h.span_eq, hrun]
  exact ⟨rfl, htext⟩

/-- The bytes of an operator or a word are its value. -/
theorem span_eq_value (h : t.Covers text p rest) (hk : t.kind ∉ [Kind.number, .string, .unknown]) :
    t.span text = t.value := by
  rcases wordMeaning_plain h.face_eq.symm hk with ⟨ho, hv⟩ | ⟨hw, hv, _⟩
  · have hsome : (operator? p.head.scalar).isSome = true := by rw [ho]; rfl
    have hword : p.word = [p.head] := by rw [Piece.word, h.ends.of_operator hsome]
    rw [h.span_eq, hv, hword, Symbol.text_eq_encoded]
    · rfl
    · intro r hr
      rw [List.mem_singleton.1 hr]
      exact ne_replacement_of_operator hsome
  · rw [hv]
    exact (h.name hw).2

/-- The bytes of a number are all the digits that stand there, and its value is the number that they are read as. -/
theorem number (h : t.Covers text p rest) (hk : t.kind = .number) :
    IsNumeral (t.span text) ∧ (text.drop t.start).takeWhile isDigitByte = t.span text ∧
      ∃ n, Integer.read (t.span text) = .ok n ∧ t.value = signed n := by
  have hface : wordMeaning p.head.scalar p.tail = (.number, t.value) := by rw [← hk]; exact h.face_eq.symm
  obtain ⟨hd, n, hn, hv⟩ := wordMeaning_number hface
  obtain ⟨hnumeral, hrun, htext⟩ := h.digits hd
  exact ⟨hnumeral, hrun, n, by rw [htext]; exact hn, hv⟩

end Token.Covers

end CallLang
