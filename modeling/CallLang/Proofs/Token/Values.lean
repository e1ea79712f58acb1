import CallLang.Proofs.Token.Scanning

/-!
# How names and numbers are spelled

The value of an identifier is a name and the value of a number is a numeral, whatever the scanner reads and whatever
faults it meets: characters are only added to a word or a number while they belong to it (`takeWhile_all`), and these
characters are single bytes.

- `Token.Spelled`: a token whose value is a name or a numeral where its kind asks for one;
- `Scanner.spelled_run`: every token of every run is spelled so, since the token that one step reads is
  (`Scanner.spelled_token`).
-/

namespace CallLang

/-! ## Names and numerals -/

/-- A byte that may start a name. -/
def isNameStart (b : UInt8) : Bool :=
  b == 0x5F || (0x61 ≤ b && b ≤ 0x7A) || (0x41 ≤ b && b ≤ 0x5A)

/-- A byte that may go on with a name. -/
def isNamePart (b : UInt8) : Bool :=
  isNameStart b || isDigitByte b

/-- Letters, digits and underscores, and the first is no digit. -/
def IsName (text : Bytes) : Prop :=
  ∃ b rest, text = b :: rest ∧ isNameStart b = true ∧ ∀ a ∈ rest, isNamePart a = true

/-- One or more digits. -/
def IsNumeral (text : Bytes) : Prop :=
  text ≠ [] ∧ ∀ b ∈ text, isDigitByte b = true

theorem IsName.all {text : Bytes} (h : IsName text) : ∀ a ∈ text, isNamePart a = true := by
  obtain ⟨b, rest, rfl, hb, hr⟩ := h
  intro a ha
  rcases List.mem_cons.1 ha with rfl | ha
  · simp [isNamePart, hb]
  · exact hr a ha

section Characters

variable {c : Char}

theorem isDigit_iff : isDigit c = true ↔ 0x30 ≤ c.toNat ∧ c.toNat ≤ 0x39 := by
  simp only [isDigit, Bool.and_eq_true, decide_eq_true_eq, Char.le_def, UInt32.le_iff_toNat_le]
  rfl

theorem isWordStart_iff :
    isWordStart c = true ↔ c.toNat = 0x5F ∨ (0x61 ≤ c.toNat ∧ c.toNat ≤ 0x7A) ∨ (0x41 ≤ c.toNat ∧ c.toNat ≤ 0x5A) := by
  have hu : c = '_' ↔ c.toNat = 0x5F := Char.toNat_inj.symm
  simp only [isWordStart, Bool.or_eq_true, Bool.and_eq_true, beq_iff_eq, decide_eq_true_eq, Char.le_def,
    UInt32.le_iff_toNat_le, or_assoc, hu]
  rfl

theorem encode_of_lt (h : c.toNat < 0x80) : Utf8.encode c = [c.toNat.toUInt8] := by
  simp [Utf8.encode, h]

theorem encode_digit (h : isDigit c = true) : ∃ b, Utf8.encode c = [b] ∧ isDigitByte b = true := by
  have hc := isDigit_iff.1 h
  refine ⟨c.toNat.toUInt8, encode_of_lt (by omega), ?_⟩
  simp only [isDigitByte, Bool.and_eq_true, decide_eq_true_eq, UInt8.le_iff_toNat_le,
    Utf8.toNat_toUInt8 (show c.toNat < 256 by omega)]
  exact hc

theorem encode_wordStart (h : isWordStart c = true) : ∃ b, Utf8.encode c = [b] ∧ isNameStart b = true := by
  have hc := isWordStart_iff.1 h
  refine ⟨c.toNat.toUInt8, encode_of_lt (by omega), ?_⟩
  simp only [isNameStart, Bool.or_eq_true, Bool.and_eq_true, beq_iff_eq, decide_eq_true_eq, UInt8.le_iff_toNat_le,
    ← UInt8.toNat_inj, Utf8.toNat_toUInt8 (show c.toNat < 256 by omega), or_assoc]
  exact hc

theorem encode_wordPart (h : isWordPart c = true) : ∃ b, Utf8.encode c = [b] ∧ isNamePart b = true := by
  rcases Bool.or_eq_true_iff.1 h with hs | hd
  · obtain ⟨b, he, hb⟩ := encode_wordStart hs
    exact ⟨b, he, by simp [isNamePart, hb]⟩
  · obtain ⟨b, he, hb⟩ := encode_digit hd
    exact ⟨b, he, by simp [isNamePart, hb]⟩

/-- A class of characters that are single bytes becomes a class of bytes. -/
theorem encoded_all {p : Char → Bool} {q : UInt8 → Bool} {cs : List Char}
    (hp : ∀ c, p c = true → ∃ b, Utf8.encode c = [b] ∧ q b = true) (h : ∀ c ∈ cs, p c = true) :
    ∀ b ∈ encoded cs, q b = true := by
  intro b hb
  obtain ⟨c, hc, hbc⟩ := List.mem_flatMap.1 hb
  obtain ⟨a, ha, hq⟩ := hp c (h c hc)
  rw [ha, List.mem_singleton] at hbc
  rw [hbc]
  exact hq

theorem isName_encoded {part : List Char} (hc : isWordStart c = true) (hp : ∀ a ∈ part, isWordPart a = true) :
    IsName (encoded (c :: part)) := by
  obtain ⟨b, hb, hs⟩ := encode_wordStart hc
  refine ⟨b, encoded part, ?_, hs, encoded_all (fun _ => encode_wordPart) hp⟩
  rw [encoded, List.flatMap_cons, hb]
  rfl

end Characters

theorem isDigitByte_digitByte {n : Nat} (h : n < 10) : isDigitByte (digitByte n) = true := by
  simp only [isDigitByte, digitByte, Bool.and_eq_true, decide_eq_true_eq, UInt8.le_iff_toNat_le,
    Utf8.toNat_toUInt8 (show 0x30 + n < 256 by omega)]
  show 0x30 ≤ 0x30 + n ∧ 0x30 + n ≤ 0x39
  omega

theorem isNumeral_decimal (n : Nat) : IsNumeral (decimal n) := by
  induction n using Nat.strongRecOn with
  | ind n ih =>
    rw [decimal]
    split
    · next hn =>
      refine ⟨by simp, ?_⟩
      intro b hb
      rw [List.mem_singleton.1 hb]
      exact isDigitByte_digitByte hn
    · next hn =>
      obtain ⟨_, hd⟩ := ih (n / 10) (by omega)
      refine ⟨by simp, ?_⟩
      intro b hb
      rcases List.mem_append.1 hb with hb | hb
      · exact hd b hb
      · rw [List.mem_singleton.1 hb]
        exact isDigitByte_digitByte (by omega)

theorem Integer.splitSign_of_digit {b : UInt8} {rest : Bytes} (hb : isDigitByte b = true) :
    Integer.splitSign (b :: rest) = (false, b :: rest) := by
  unfold Integer.splitSign
  split
  · next he => cases he; simp [isDigitByte] at hb
  · next he => cases he; simp [isDigitByte] at hb
  · rfl

/-- A text without a sign is not read as a negative number. -/
theorem Integer.read_nonneg {b : UInt8} {rest : Bytes} {n : Int} (hb : isDigitByte b = true)
    (h : Integer.read (b :: rest) = .ok n) : 0 ≤ n := by
  simp only [Integer.read, Integer.splitSign_of_digit hb, Bool.false_eq_true, if_false] at h
  split at h
  · cases h
  · split at h
    · cases h
    · cases h
    · split at h
      · cases h
        simp
      · cases h

theorem isNumeral_signed {n : Int} (h : 0 ≤ n) : IsNumeral (signed n) := by
  rw [signed, if_neg (by omega)]
  exact isNumeral_decimal _

/-! ## Tokens of a scanner -/

/-- A token whose value is a name or a numeral where its kind asks for one. -/
def Token.Spelled (t : Token) : Prop :=
  (t.kind = .identifier → IsName t.value) ∧ (t.kind = .number → IsNumeral t.value)

theorem operator_ne {c : Char} {kind : Kind} (h : operator? c = some kind) : kind ≠ .identifier ∧ kind ≠ .number := by
  unfold operator? at h
  split at h <;> cases h <;> simp

theorem ofWord_ne_number (word : Bytes) : Kind.ofWord word ≠ .number := by
  unfold Kind.ofWord
  split
  · simp
  · split
    · simp
    · split
      · simp
      · split <;> simp

namespace Scanner

/-- What is accepted satisfies the condition. -/
theorem of_accept {α : Type} {f : Char → Option α} {s t : Scanner} {a : α} (h : s.accept f = (some a, t)) :
    ∃ c, f c = some a := by
  unfold accept at h
  split at h
  · next c _ _ =>
    split at h
    · next hf => cases h; exact ⟨c, hf⟩
    · cases h
  · cases h

theorem takeWhile_all (p : Char → Bool) (s : Scanner) : ∀ c ∈ (s.takeWhile p).1, p c = true := by
  fun_induction takeWhile p s with
  | case1 s c t ha cs u hw ih =>
    obtain ⟨a, hg⟩ := of_accept ha
    obtain ⟨rfl, hp⟩ := Option.guard_eq_some_iff.1 hg
    intro b hb
    rcases List.mem_cons.1 hb with rfl | hb
    · exact hp
    · rw [hw] at ih
      exact ih b hb
  | case2 => simp

/-- The kind and the value of a token go together. -/
theorem spelled_lexeme (c : Char) (s : Scanner) (place : Option Location) (length : Int) :
    Token.Spelled ⟨(s.lexeme c).1.1, (s.lexeme c).1.2, place, length⟩ := by
  unfold lexeme
  split
  · next kind ho =>
    obtain ⟨hi, hn⟩ := operator_ne ho
    exact ⟨fun h => absurd h hi, fun h => absurd h hn⟩
  · split
    · exact ⟨nofun, nofun⟩
    · split
      · next hd =>
        obtain ⟨b, hb, hbd⟩ := encode_digit hd
        dsimp only
        split
        · next n hr =>
          rw [encoded, List.flatMap_cons, hb] at hr
          exact ⟨nofun, fun _ => isNumeral_signed (Integer.read_nonneg hbd hr)⟩
        · exact ⟨nofun, nofun⟩
      · split
        · next hw =>
          exact ⟨fun _ => isName_encoded hw (takeWhile_all isWordPart s), fun h => absurd h (ofWord_ne_number _)⟩
        · exact ⟨nofun, nofun⟩

theorem spelled_token {s t : Scanner} {token : Token} (h : s.token? = (some token, t)) : token.Spelled := by
  unfold token? at h
  split at h
  · cases h
  · cases h
    exact spelled_lexeme _ _ _ _

/-- Every token of a run is spelled as its kind asks. -/
theorem spelled_run (s : Scanner) : ∀ t ∈ s.run.1, t.Spelled := by
  fun_induction run s with
  | case1 => simp
  | case2 s token t ht tokens u hr ih =>
    rw [hr] at ih
    intro a ha
    rcases List.mem_cons.1 ha with rfl | ha
    · exact spelled_token ht
    · exact ih a ha

end Scanner

end CallLang
