import CallLang.Text.Blank
import CallLang.Text.Utf8.Laws

/-!
# Texts with more behind them

- `decode_append`: once the head of a text is settled, bytes that arrive later do not change its first symbol;
- `symbols_of_decode`, `symbols_chars_append`: the symbols of a text, one symbol or one list of characters at a time;
- `Blank`: a text of which every symbol is blank. It is made of whole characters, so it has the same symbols wherever it
  stands (`symbols_blank_append`).
-/

namespace CallLang.Utf8

/-! ## Settled heads -/

/-- What the owed bytes have decided, later bytes do not change. -/
theorem continued_append {owed n : Nat} {low high : UInt8} {bytes more : Bytes} :
    (∀ c rest, continued owed low high n bytes = .whole c rest →
      continued owed low high n (bytes ++ more) = .whole c (rest ++ more)) ∧
    (continued owed low high n bytes = .malformed → continued owed low high n (bytes ++ more) = .malformed) := by
  fun_induction continued owed low high n bytes with
  | case1 low high n bytes => simp [continued]
  | case2 => simp
  | case3 owed low high n b bytes hb ih =>
    rw [List.cons_append, continued, if_pos hb]
    exact ih
  | case4 owed low high n b bytes hb => simp [continued, hb]

theorem scan_append {bytes more : Bytes} :
    (∀ c rest, scan bytes = .whole c rest → scan (bytes ++ more) = .whole c (rest ++ more)) ∧
    (scan bytes = .malformed → scan (bytes ++ more) = .malformed) := by
  cases bytes with
  | nil => simp [scan]
  | cons a bytes =>
    simp only [scan, List.cons_append]
    by_cases ha : a < 0x80
    · simp [ha]
    · rw [if_neg ha, if_neg ha]
      cases lead? a with
      | none => simp
      | some l => exact continued_append

/-- The first symbol of a settled text stays when more bytes arrive. -/
theorem decode_append {bytes rest more : Bytes} {r : Symbol} (hs : settled bytes = true)
    (h : decode bytes = some (r, rest)) : decode (bytes ++ more) = some (r, rest ++ more) := by
  cases bytes with
  | nil => cases h
  | cons b bytes =>
    have hw := @scan_append (b :: bytes) more
    simp only [decode, List.cons_append] at h hw ⊢
    cases hb : scan (b :: bytes) with
    | whole c after =>
      rw [hb] at h
      cases h
      rw [hw.1 c rest hb]
    | malformed =>
      rw [hb] at h
      cases h
      rw [hw.2 hb]
    | unfinished => simp [settled, hb] at hs

theorem not_settled_nil : settled [] = false := rfl

/-! ## The symbols of a text -/

@[simp] theorem symbols_nil : symbols [] = [] := by
  rw [symbols, decode]

theorem symbols_of_decode {bytes rest : Bytes} {r : Symbol} (h : decode bytes = some (r, rest)) :
    symbols bytes = r :: symbols rest := by
  rw [symbols]
  split
  · next hn => rw [h] at hn; cases hn
  · next hd => rw [h] at hd; cases hd; rfl

theorem symbols_eq_nil_iff {bytes : Bytes} : symbols bytes = [] ↔ bytes = [] := by
  constructor
  · intro h
    have := flatMap_bytes_symbols bytes
    rw [h] at this
    exact this.symm
  · rintro rfl
    exact symbols_nil

/-- The first symbol of a text and the text behind it. -/
theorem decode_of_symbols {bytes : Bytes} {r : Symbol} {rest : List Symbol} (h : symbols bytes = r :: rest) :
    ∃ later, decode bytes = some (r, later) ∧ symbols later = rest := by
  cases hd : decode bytes with
  | none =>
    rw [decode_eq_none_iff.1 hd, symbols_nil] at h
    cases h
  | some found =>
    obtain ⟨r', later⟩ := found
    rw [symbols_of_decode hd] at h
    cases h
    exact ⟨later, rfl, rfl⟩

theorem encode_ne_nil (c : Char) : encode c ≠ [] := by
  unfold encode
  dsimp only
  split
  · simp
  · split
    · simp
    · split <;> simp

theorem symbols_encode_append (c : Char) (rest : Bytes) : symbols (encode c ++ rest) = .char c :: symbols rest := by
  refine symbols_of_decode ?_
  obtain ⟨b, more, hb⟩ := List.exists_cons_of_ne_nil (encode_ne_nil c)
  have hs := scan_encode c rest
  rw [hb, List.cons_append] at hs ⊢
  rw [decode, hs]

/-- Whole characters have the same symbols wherever they stand. -/
theorem symbols_chars_append (cs : List Char) (rest : Bytes) :
    symbols (cs.flatMap encode ++ rest) = cs.map .char ++ symbols rest := by
  induction cs with
  | nil => rfl
  | cons c cs ih => rw [List.flatMap_cons, List.append_assoc, symbols_encode_append, ih]; rfl

end CallLang.Utf8

namespace CallLang

theorem Symbol.bytes_ne_nil (r : Symbol) : r.bytes ≠ [] := by
  cases r with
  | char c => exact Utf8.encode_ne_nil c
  | stray b => simp [Symbol.bytes]

/-! ## Blank texts -/

/-- A text of which every symbol is blank. -/
def Blank (text : Bytes) : Prop :=
  ∀ r ∈ Utf8.symbols text, r.blank = true

/-- Blank symbols are characters. -/
theorem exists_chars_of_blank {rs : List Symbol} (h : ∀ r ∈ rs, r.blank = true) : ∃ cs : List Char, rs = cs.map .char := by
  induction rs with
  | nil => exact ⟨[], rfl⟩
  | cons r rs ih =>
    obtain ⟨cs, rfl⟩ := ih fun r' hr' => h r' (List.mem_cons_of_mem _ hr')
    cases r with
    | char c => exact ⟨c :: cs, rfl⟩
    | stray b => exact absurd (h _ List.mem_cons_self) (by simp [Symbol.blank])

/-- Blank symbols are cut from their bytes again. -/
theorem symbols_blank_append {rs : List Symbol} (h : ∀ r ∈ rs, r.blank = true) (rest : Bytes) :
    Utf8.symbols (rs.flatMap Symbol.bytes ++ rest) = rs ++ Utf8.symbols rest := by
  obtain ⟨cs, rfl⟩ := exists_chars_of_blank h
  rw [List.flatMap_map]
  exact Utf8.symbols_chars_append cs rest

theorem blank_flatMap {rs : List Symbol} (h : ∀ r ∈ rs, r.blank = true) : Blank (rs.flatMap Symbol.bytes) := by
  have hs := symbols_blank_append h []
  rw [List.append_nil, Utf8.symbols_nil, List.append_nil] at hs
  intro r hr
  rw [hs] at hr
  exact h r hr

end CallLang
