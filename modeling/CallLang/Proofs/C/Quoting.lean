import CallLang.Proofs.C.Composition

/-!
# String literals are exact

A string literal stands for its string and for nothing else. What is between its quotes is made of the forms of single
bytes (`stringByte_cases`): a byte that stands for itself, or an escape sequence. So a quote or a backslash that is met
there is part of an escape sequence, and reading comes to this sequence as a whole (`InEscape`,
`inEscape_of_flatMap`).

- `printable_stringLiteral`: there are no control bytes in a literal;
- `eq_of_stringLiteral_append`: a literal ends where it is meant to, so two texts that start with literals start with the
  same one.
-/

namespace CallLang.C

/-- An escape sequence: a backslash, and signs that make it the byte `b` whatever follows them. -/
def IsEscape (b : UInt8) (sequence : Bytes) : Prop :=
  ∃ signs, sequence = 0x5C :: signs ∧ ∀ rest, escaped? (signs ++ rest) = some (b, rest)

/-- A place in the inside of a literal that is in an escape sequence. What stands before the sequence is read as whole
bytes, so it is read as a sequence and not cut in two. -/
def InEscape (inside : Bytes) (i : Nat) : Prop :=
  ∃ front sequence back bytes b, inside = front ++ (sequence ++ back) ∧
    (∀ rest, body? (front ++ 0x22 :: rest) = some (bytes, rest)) ∧ IsEscape b sequence ∧
    front.length ≤ i ∧ i < front.length + sequence.length

/-! ## The forms of bytes -/

/-- A byte stands for itself, and then it is no quote and no backslash, or an escape sequence stands for it. -/
theorem plain_or_isEscape (b : UInt8) :
    (stringByte b = [b] ∧ b ≠ 0x22 ∧ b ≠ 0x5C) ∨ IsEscape b (stringByte b) := by
  rcases stringByte_cases b with ⟨hs, _, _, hq, hb⟩ | ⟨e, digits, hs, _⟩
  · exact .inl ⟨hs, hq, hb⟩
  · refine .inr ⟨e :: digits, hs, fun rest => ?_⟩
    have hunit := unit_stringByte b rest
    rw [hs] at hunit
    exact hunit

/-- A place between the quotes is in the form of one of the bytes. -/
theorem exists_byte_at {s : Bytes} {i : Nat} (h : i < (s.flatMap stringByte).length) :
    ∃ front b back, s = front ++ b :: back ∧ (front.flatMap stringByte).length ≤ i ∧
      i < (front.flatMap stringByte).length + (stringByte b).length := by
  induction s generalizing i with
  | nil => cases h
  | cons a s ih =>
    by_cases hi : i < (stringByte a).length
    · exact ⟨[], a, s, rfl, Nat.zero_le i, by simpa using hi⟩
    · rw [List.flatMap_cons, List.length_append] at h
      obtain ⟨front, b, back, rfl, hle, hlt⟩ := ih (i := i - (stringByte a).length) (by omega)
      refine ⟨a :: front, b, back, rfl, ?_, ?_⟩ <;>
        (rw [List.flatMap_cons, List.length_append]; omega)

/-- A quote or a backslash between the quotes of a literal is in an escape sequence. -/
theorem inEscape_of_flatMap {s : Bytes} {i : Nat} {c : UInt8} (h : (s.flatMap stringByte)[i]? = some c)
    (hc : c = 0x22 ∨ c = 0x5C) : InEscape (s.flatMap stringByte) i := by
  obtain ⟨hi, _⟩ := List.getElem?_eq_some_iff.1 h
  obtain ⟨front, b, back, rfl, hle, hlt⟩ := exists_byte_at hi
  have hinside : (front ++ b :: back).flatMap stringByte =
      front.flatMap stringByte ++ (stringByte b ++ back.flatMap stringByte) := by
    rw [List.flatMap_append, List.flatMap_cons]
  refine ⟨_, stringByte b, _, front, b, hinside, body_flatMap front, ?_, hle, hlt⟩
  rcases plain_or_isEscape b with ⟨hs, hq, hb⟩ | hescape
  · -- a byte that stands for itself would be the quote or the backslash
    have hmem : c ∈ stringByte b := by
      rw [hinside, List.getElem?_append_right hle, List.getElem?_append_left (by omega)] at h
      exact List.mem_of_getElem? h
    rw [hs, List.mem_singleton] at hmem
    subst hmem
    exact absurd hc (not_or.2 ⟨hq, hb⟩)
  · exact hescape

theorem printable_stringByte {b c : UInt8} (h : c ∈ stringByte b) : 0x20 ≤ c.toNat ∧ c ≠ 0x7F := by
  rcases stringByte_cases b with ⟨hs, hlow, h7, _⟩ | ⟨e, digits, hs, he, hd⟩
  · rw [hs, List.mem_singleton] at h
    subst h
    exact ⟨hlow, h7⟩
  · have below {x : UInt8} (hx : x.toNat < 0x7F) : x ≠ 0x7F := by
      rintro rfl
      exact absurd hx (by decide)
    rw [hs, List.mem_cons, List.mem_cons] at h
    rcases h with rfl | rfl | h
    · decide
    · exact ⟨he.1, below he.2⟩
    · have hoctal := hd c h
      simp only [isOctal, Bool.and_eq_true, decide_eq_true_eq, UInt8.le_iff_toNat_le, UInt8.reduceToNat] at hoctal
      exact ⟨by omega, below (by omega)⟩

/-! ## Literals -/

/-- There are no control bytes in a literal. -/
theorem printable_stringLiteral {s : Bytes} {c : UInt8} (h : c ∈ stringLiteral s) : 0x20 ≤ c.toNat ∧ c ≠ 0x7F := by
  rw [stringLiteral_eq, List.mem_cons, List.mem_append, List.mem_singleton] at h
  rcases h with rfl | h | rfl
  · decide
  · obtain ⟨b, _, hc⟩ := List.mem_flatMap.1 h
    exact printable_stringByte hc
  · decide

/-- A literal in front of a text is told from the text. -/
theorem eq_of_stringLiteral_append {s s' rest rest' : Bytes} (h : stringLiteral s ++ rest = stringLiteral s' ++ rest') :
    s = s' ∧ rest = rest' := by
  have hread := string_stringLiteral s rest
  rw [h, string_stringLiteral, Option.some.injEq, Prod.mk.injEq] at hread
  exact ⟨hread.1.symm, hread.2.symm⟩

/-- **A string literal is exact.** It is between two quotes, and each quote and each backslash inside is part of an
escape sequence. It has no control bytes. By the rules of C, what is between its quotes is read as the string; and the
literal is read as the string also in front of another text, which is left, so that it determines the string and the
text behind it. -/
theorem stringLiteral_exact (s : Bytes) :
    (∃ inside, stringLiteral s = 0x22 :: (inside ++ [0x22]) ∧
      (∀ i c, inside[i]? = some c → c = 0x22 ∨ c = 0x5C → InEscape inside i) ∧
      ∀ rest, body? (inside ++ 0x22 :: rest) = some (s, rest)) ∧
    (∀ c ∈ stringLiteral s, 0x20 ≤ c.toNat ∧ c ≠ 0x7F) ∧
    (∀ rest, string? (stringLiteral s ++ rest) = some (s, rest)) ∧
    ∀ s' rest rest', stringLiteral s ++ rest = stringLiteral s' ++ rest' → s = s' ∧ rest = rest' :=
  ⟨⟨s.flatMap stringByte, stringLiteral_eq s, fun _ _ => inEscape_of_flatMap, body_flatMap s⟩,
    fun _ => printable_stringLiteral, string_stringLiteral s, fun _ _ _ => eq_of_stringLiteral_append⟩

/-- A control byte in front of a digit, a backslash in front of `n`, a quote, and a backslash at the end. -/
theorem stringLiteral_exact_digit :
    let s : Bytes := 0x01 :: ascii "2\\n\"\\"
    stringLiteral s = ascii "\"\\0012\\\\n\\\"\\\\\"" ∧ InEscape (ascii "\\0012\\\\n\\\"\\\\") 6 ∧
      (0x20 ≤ (0x5C : UInt8).toNat ∧ (0x5C : UInt8) ≠ 0x7F) ∧
      string? (ascii "\"\\0012\\\\n\\\"\\\\\"" ++ ascii "7\";") = some (s, ascii "7\";") ∧
      ∀ s' rest', ascii "\"\\0012\\\\n\\\"\\\\\"7" = stringLiteral s' ++ rest' → s = s' ∧ ascii "7" = rest' := by
  intro s
  have hs : stringLiteral s = ascii "\"\\0012\\\\n\\\"\\\\\"" := by decide +kernel
  obtain ⟨⟨inside, hinside, hescape, _⟩, hprintable, hread, hunique⟩ := stringLiteral_exact s
  rw [hs] at hinside hprintable hread hunique
  obtain rfl : ascii "\\0012\\\\n\\\"\\\\" = inside := by
    have h : (0x22 : UInt8) :: (ascii "\\0012\\\\n\\\"\\\\" ++ [0x22]) = 0x22 :: (inside ++ [0x22]) := hinside
    exact List.append_cancel_right (List.cons.inj h).2
  refine ⟨hs, hescape 6 0x5C (by decide +kernel) (.inr rfl), hprintable _ (by decide +kernel), hread _, ?_⟩
  intro s' rest' h
  exact hunique s' (ascii "7") rest' h

end CallLang.C
