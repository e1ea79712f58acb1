import CallLang.Proofs.Token.Numbers
import CallLang.Proofs.Token.Strings

/-!
# Tokens are as long as they can be

What the token at an offset of a text is, said on the bytes that stand there: the first of them decides how far the
token goes, and its bytes decide its kind and its value. There are four cases, digits, words, strings and single
symbols, and a lemma for each of them (`Covers.digits_face`, `Covers.word_face`, `Covers.string_face`,
`Covers.sign_face`). `tokens_maximal` puts them together.
-/

namespace CallLang

/-- The words with a kind of their own. -/
def keywords : List (Bytes × Kind) :=
  [(ascii "import", .importWord), (ascii "from", .fromWord), (ascii "fn", .fnWord), (ascii "void", .typeName)]

/-- The characters that are tokens by themselves, with their kinds. -/
def signs : List (Bytes × Kind) :=
  [(ascii "(", .openParen), (ascii ")", .closeParen), ([Bytes.openBrace], .openBrace),
    ([Bytes.closeBrace], .closeBrace), (ascii ";", .semicolon)]

/-- Looking up a key at the head of a table. -/
theorem lookup_cons_eq_ite (w key : Bytes) (kind : Kind) (table : List (Bytes × Kind)) :
    ((key, kind) :: table).lookup w = if w = key then some kind else table.lookup w := by
  by_cases h : w = key
  · simp [h]
  · have hne : (w == key) = false := beq_eq_false_iff_ne.2 h
    simp [List.lookup_cons, h, hne]

theorem ofWord_eq_lookup (word : Bytes) : Kind.ofWord word = (keywords.lookup word).getD .identifier := by
  simp only [Kind.ofWord, keywords, lookup_cons_eq_ite, List.lookup_nil, apply_ite (Option.getD · Kind.identifier)]
  rfl

/-- A symbol is looked up by its bytes or by its character. -/
theorem lookup_signs {r : Symbol} {rest : List Symbol} (hg : Symbol.Genuine (r :: rest)) :
    signs.lookup r.bytes = operator? r.scalar := by
  cases ho : operator? r.scalar with
  | some kind =>
    unfold operator? at ho
    split at ho <;> cases ho
    all_goals next hc => rw [(Symbol.eq_char_of_scalar hc (by decide)).2]; rfl
  | none =>
    have hnot {b : UInt8} (hlt : b.toNat < 0x80) (hs : (operator? (Char.ofNat b.toNat)).isSome = true) :
        r.bytes ≠ [b] := by
      intro hr
      rw [← Symbol.scalar_of_mem_bytes hg (by rw [hr]; exact List.mem_cons_self) hlt, ho] at hs
      cases hs
    apply List.lookup_eq_none_iff.2
    intro entry he
    simp only [signs, List.mem_cons, List.not_mem_nil, or_false] at he
    rcases he with rfl | rfl | rfl | rfl | rfl
    all_goals exact bne_iff_ne.2 (hnot (by decide) (by decide))

namespace Token.Covers

variable {text : Bytes} {t : Token} {p : Piece} {rest : List Symbol}

/-- The bytes of a token with stray bytes replaced. -/
theorem mended_span (h : t.Covers text p rest) :
    mended (t.span text) = encoded (p.head.scalar :: p.tail.map Symbol.scalar) := by
  rw [mended, h.span_eq, h.genuine.front]
  rfl

/-- Digits are a number with what they are worth, in decimal, if this fits, and unknown if it does not. -/
theorem digits_face (h : t.Covers text p rest) (hd : isDigit p.head.scalar = true) :
    t.face = if numeralValue (t.span text) < 0x8000000000000000 then (.number, decimal (numeralValue (t.span text)))
      else (.unknown, t.span text) := by
  obtain ⟨ho, hq, _⟩ := plain_of_isWordPart (Bool.or_eq_true_iff.2 (.inr hd))
  obtain ⟨hnumeral, _, htext⟩ := h.digits hd
  rw [h.face_eq]
  simp only [wordMeaning, ho, if_neg hq, if_pos hd, ← htext, Integer.read_of_numeral hnumeral]
  by_cases hfits : numeralValue (t.span text) < 0x8000000000000000
  · rw [if_pos hfits, if_pos hfits]
    exact congrArg (Prod.mk Kind.number) (signed_natCast _)
  · rw [if_neg hfits, if_neg hfits]

/-- A word is itself, and its kind can be looked up. -/
theorem word_face (h : t.Covers text p rest) (hw : isWordStart p.head.scalar = true) :
    t.face = ((keywords.lookup (t.span text)).getD .identifier, t.span text) := by
  obtain ⟨ho, hq, _⟩ := plain_of_isWordPart (Bool.or_eq_true_iff.2 (.inl hw))
  rw [h.face_eq, ← ofWord_eq_lookup, (h.name hw).2]
  simp [wordMeaning, ho, hq, isDigit_of_isWordStart hw, hw]

/-- A string goes up to its closing quote and stands for what is inside it. -/
theorem string_face (h : t.Covers text p rest) (hq : p.head.scalar = '"') :
    t.kind = .string ∧ ∃ body, StringEnds (text.drop (t.start + 1)) (t.span text) (mended (t.span text)) body ∧
      t.value = unescape body := by
  have hhead : p.head.bytes = [quoteByte] := (Symbol.eq_char_of_scalar hq (by decide)).2
  have hsplit : splitString (p.tail ++ rest) = (p.tail, rest) := by
    have hends := h.ends
    rw [Piece.Ends, hq] at hends
    exact hends
  have hface : t.face = (.string, encoded (stringValue (p.tail ++ rest))) := by
    rw [h.face_eq, hq, ← stringValue_splitString, hsplit]
    rfl
  have hafter : text.drop (t.start + 1) = Symbol.text (p.tail ++ rest) := by
    rw [← List.drop_drop, h.drop_eq, Piece.word, List.cons_append, Symbol.text_cons, hhead]
    rfl
  have hspan : t.span text = quoteByte :: Symbol.text p.tail := by
    rw [h.span_eq, Piece.word, Symbol.text_cons, hhead]
    rfl
  have hmended : mended (t.span text) = quoteByte :: encoded (p.tail.map Symbol.scalar) := by
    rw [h.mended_span, hq]
    rfl
  have hgenuine : Symbol.Genuine (p.tail ++ rest) := (Symbol.genuine_cons.1 h.genuine).2
  refine ⟨congrArg Prod.fst hface, _, ?_, (congrArg Prod.snd hface).trans (unescape_inside _).symm⟩
  rw [hafter, hmended, hspan]
  exact stringEnds_splitString hgenuine hsplit

/-- All else is one symbol. -/
theorem sign_face (h : t.Covers text p rest) (hd : isDigit p.head.scalar = false)
    (hw : isWordStart p.head.scalar = false) (hq : p.head.scalar ≠ '"') :
    Utf8.symbols (t.span text) = [p.head] ∧
      t.face = ((signs.lookup (t.span text)).getD .unknown, mended (t.span text)) := by
  have htail : p.tail = [] := by
    have hends := h.ends
    rw [Piece.Ends, splitWord] at hends
    split at hends
    · exact (Prod.mk.inj hends).1.symm
    · rw [hd, hw] at hends
      exact (Prod.mk.inj hends).1.symm
  have hspan : t.span text = p.head.bytes := by
    rw [h.span_eq, Piece.word, htail, Symbol.text_cons]
    exact List.append_nil _
  refine ⟨?_, ?_⟩
  · rw [h.span_eq, h.genuine.front, Piece.word, htail]
  · rw [h.mended_span, hspan, lookup_signs h.genuine, htail, h.face_eq, wordMeaning, if_neg hq, hd, hw]
    cases operator? p.head.scalar with
    | some kind => rfl
    | none => rfl

end Token.Covers

/-- **Tokens are as long as they can be.** Each token of a text covers some bytes and is decided by them. If the first
of them is a digit, they are all the digits that stand there, and the token is a number with what they are worth, in
decimal and without leading zeros, or it is unknown if this does not fit. If it starts a name, they are all that goes on
with the name, and the token is this word. If it is a quote, they are a string as far as it goes, and the token stands
for what is between the quotes. Else they are one symbol, which is an operator or unknown. -/
theorem tokens_maximal (file text : Bytes) :
    ∀ t ∈ tokenize file text,
      let w := t.span text
      let after := text.drop t.start
      w ≠ [] ∧ t.face = meaning w ∧ ∀ b, w.head? = some b →
      (isDigitByte b = true → w = after.takeWhile isDigitByte ∧
        (numeralValue w < 0x8000000000000000 → t.face = (.number, decimal (numeralValue w)) ∧
          (t.value.head? = some 0x30 → t.value = [0x30])) ∧
        (0x8000000000000000 ≤ numeralValue w → t.face = (.unknown, w))) ∧
      (isNameStart b = true → w = after.takeWhile isNamePart ∧ t.face = ((keywords.lookup w).getD .identifier, w)) ∧
      (b = quoteByte → t.kind = .string ∧
        ∃ body, StringEnds (after.drop 1) w (mended w) body ∧ t.value = unescape body) ∧
      (isDigitByte b = false → isNameStart b = false → b ≠ quoteByte →
        (∃ r, Utf8.symbols w = [r] ∧ (Utf8.symbols after).head? = some r) ∧
        t.face = ((signs.lookup w).getD .unknown, mended w)) := by
  intro t ht w after
  obtain ⟨p, rest, h⟩ := exists_covers ht
  have hw : w = p.head.bytes ++ Symbol.text p.tail := h.span_eq
  refine ⟨by simp [hw, p.head.bytes_ne_nil], h.meaning_span.symm, fun b hfirst => ?_⟩
  obtain ⟨first, bytes, hb⟩ := List.exists_cons_of_ne_nil p.head.bytes_ne_nil
  obtain rfl : first = b := by
    rw [hw, hb] at hfirst
    exact Option.some.inj hfirst
  have hdigit : isDigitByte first = true ↔ isDigit p.head.scalar = true := sameClass_digit.head_iff h.genuine hb
  have hname : isNameStart first = true ↔ isWordStart p.head.scalar = true := sameClass_wordStart.head_iff h.genuine hb
  have hquote : first = quoteByte ↔ p.head.scalar = '"' := by
    constructor
    · rintro rfl
      exact Symbol.scalar_of_mem_bytes h.genuine (by rw [hb]; exact List.mem_cons_self) (by decide)
    · intro hq
      exact (List.cons.inj (hb.symm.trans (Symbol.eq_char_of_scalar hq (by decide)).2)).1
  refine ⟨?_, ?_, ?_, ?_⟩
  · intro hd
    obtain ⟨_, hrun, _⟩ := h.digits (hdigit.1 hd)
    have hface := h.digits_face (hdigit.1 hd)
    refine ⟨hrun.symm, fun hfits => ?_, fun hlarge => ?_⟩
    · rw [if_pos hfits] at hface
      refine ⟨hface, fun hzero => ?_⟩
      have hvalue : t.value = decimal (numeralValue w) := congrArg Prod.snd hface
      rw [hvalue] at hzero ⊢
      rw [decimal_head hzero, decimal]
      rfl
    · rwa [if_neg (Nat.not_lt.2 hlarge)] at hface
  · intro hs
    exact ⟨(h.name (hname.1 hs)).1.symm, h.word_face (hname.1 hs)⟩
  · intro hq
    have hstring := h.string_face (hquote.1 hq)
    rwa [← List.drop_drop] at hstring
  · intro hd hs hq
    obtain ⟨hone, hface⟩ := h.sign_face (Bool.eq_false_iff.2 (mt hdigit.2 (Bool.eq_false_iff.1 hd)))
      (Bool.eq_false_iff.2 (mt hname.2 (Bool.eq_false_iff.1 hs))) (mt hquote.2 hq)
    refine ⟨⟨p.head, hone, ?_⟩, hface⟩
    have hafter : Utf8.symbols after = p.word ++ rest := by
      rw [show after = _ from h.drop_eq]
      exact h.genuine
    rw [hafter]
    rfl

/-- A number with leading zeros, an operator, and a string with an escaped quote, a stray byte and no closing quote; and
the first number that does not fit. -/
theorem tokens_maximal_unclosed :
    let text : Bytes := ascii "007;\"a\\\"" ++ [0xFF]
    let number : Token := ⟨.number, ascii "7", some ⟨[], 1, 1, 0⟩, 3⟩
    let sign : Token := ⟨.semicolon, ascii ";", some ⟨[], 1, 4, 3⟩, 1⟩
    let string : Token := ⟨.string, ascii "a\"" ++ [0xEF, 0xBF, 0xBD], some ⟨[], 1, 5, 4⟩, 5⟩
    let large : Token := ⟨.unknown, ascii "9223372036854775808", some ⟨[], 1, 1, 0⟩, 19⟩
    tokenize [] text = [number, sign, string] ∧
    number.span text = text.takeWhile isDigitByte ∧ number.face = (.number, decimal (numeralValue (ascii "007"))) ∧
    (∃ r, Utf8.symbols (sign.span text) = [r]) ∧
    (∃ body, StringEnds (ascii "a\\\"" ++ [0xFF]) (string.span text) (mended (string.span text)) body ∧
      string.value = unescape body) ∧
    large ∈ tokenize [] large.value ∧ 0x8000000000000000 ≤ numeralValue large.value ∧
    large.face = (.unknown, large.value) := by
  intro text number sign string large
  have htokens : tokenize [] text = [number, sign, string] := by decide +kernel
  have hlarge : large ∈ tokenize [] large.value := by decide +kernel
  have hvalue : 0x8000000000000000 ≤ numeralValue large.value := by decide
  obtain ⟨_, _, hnumber⟩ := tokens_maximal [] text number (by rw [htokens]; simp)
  obtain ⟨_, _, hsign⟩ := tokens_maximal [] text sign (by rw [htokens]; simp)
  obtain ⟨_, _, hstring⟩ := tokens_maximal [] text string (by rw [htokens]; simp)
  obtain ⟨_, _, hunknown⟩ := tokens_maximal [] large.value large hlarge
  obtain ⟨hrun, hfits, _⟩ := (hnumber 0x30 (by decide)).1 (by decide)
  obtain ⟨⟨r, hr, _⟩, _⟩ := (hsign 0x3B (by decide)).2.2.2 (by decide) (by decide) (by decide)
  obtain ⟨_, hbody⟩ := (hstring quoteByte (by decide)).2.2.1 rfl
  obtain ⟨_, _, hface⟩ := (hunknown 0x39 (by decide)).1 (by decide)
  exact ⟨htokens, hrun, (hfits (by decide)).1, ⟨r, hr⟩, hbody, hlarge, hvalue, hface hvalue⟩

end CallLang
