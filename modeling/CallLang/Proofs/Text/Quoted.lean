import CallLang.Proofs.Source.Lines
import CallLang.Text.Quoted
import Mathlib.Tactic.SplitIfs

/-!
# Quoted texts are read back

A quoted text stands for one text only, and it is one line.

- `shown?` reads the first symbol that is shown, and returns what is behind it. A backslash tells an escape, and the
  letter behind it tells how many digits follow; a value of two digits is a character or a stray byte by its size;
- `shown_ofSymbol`: so a symbol is read back from how it is shown, whatever follows it. The stray bytes of a text are
  not below `0x80` (`proper_of_mem_symbols`), as characters with two digits are;
- `quote_injective`, `feed_not_mem_quote`: the two facts that listings rest on.
-/

namespace CallLang

/-- A symbol that can be cut from a text: bytes below `0x80` are characters. -/
def Symbol.Proper : Symbol → Prop
  | .char _ => True
  | .stray b => 0x80 ≤ b.toNat

theorem Utf8.proper_of_mem_symbols {text : Bytes} : ∀ r ∈ symbols text, r.Proper := by
  fun_induction symbols text with
  | case1 => simp
  | case2 text r rest h ih =>
    rw [List.forall_mem_cons]
    refine ⟨?_, ih⟩
    cases r with
    | char c => trivial
    | stray b => exact le_of_decode_stray h

namespace Quoted

/-! ## Hexadecimal numbers -/

/-- What a hexadecimal digit is worth. -/
def hexValue (b : UInt8) : Nat :=
  if b.toNat < 0x61 then b.toNat - 0x30 else b.toNat - 0x61 + 10

/-- What hexadecimal digits are worth. -/
def hexNumber (digits : Bytes) : Nat :=
  digits.foldl (fun n b => 16 * n + hexValue b) 0

theorem hexValue_hexDigit : ∀ n < 16, hexValue (hexDigit n) = n := by
  decide

theorem hexDigit_ne_feed : ∀ n < 16, hexDigit n ≠ 0x0A := by
  decide

@[simp] theorem length_hex (places n : Nat) : (hex places n).length = places := by
  induction places generalizing n with
  | zero => rfl
  | succ places ih => rw [hex, List.length_append, ih, List.length_singleton]

theorem hexNumber_hex {places n : Nat} (h : n < Nat.pow 16 places) : hexNumber (hex places n) = n := by
  induction places generalizing n with
  | zero =>
    rw [Nat.lt_one_iff.1 h]
    rfl
  | succ places ih =>
    have hq : n / 16 < Nat.pow 16 places := Nat.div_lt_of_lt_mul (by rwa [Nat.mul_comm])
    have hd := hexValue_hexDigit (n % 16) (Nat.mod_lt n (by decide))
    rw [hex, hexNumber, List.foldl_append, ← hexNumber, ih hq, List.foldl_cons, List.foldl_nil, hd]
    exact Nat.div_add_mod n 16

theorem feed_not_mem_hex (places n : Nat) : 0x0A ∉ hex places n := by
  induction places generalizing n with
  | zero => nofun
  | succ places ih =>
    rw [hex, List.mem_append, List.mem_singleton, not_or]
    exact ⟨ih _, (hexDigit_ne_feed _ (Nat.mod_lt n (by decide))).symm⟩

/-! ## Reading one symbol -/

/-- The character that a letter stands for behind a backslash. -/
def ofLetter? : UInt8 → Option Char
  | 0x61 => some (Char.ofNat 0x07)
  | 0x62 => some (Char.ofNat 0x08)
  | 0x74 => some (Char.ofNat 0x09)
  | 0x6E => some (Char.ofNat 0x0A)
  | 0x76 => some (Char.ofNat 0x0B)
  | 0x66 => some (Char.ofNat 0x0C)
  | 0x72 => some (Char.ofNat 0x0D)
  | 0x22 => some (Char.ofNat 0x22)
  | 0x5C => some (Char.ofNat 0x5C)
  | _ => none

/-- The symbol with a value of two digits. -/
def ofValue (n : Nat) : Symbol :=
  if n < 0x80 then .char (Char.ofNat n) else .stray n.toUInt8

/-- The symbol of an escape whose backslash was read, and what is behind it. -/
def escape? : Bytes → Option (Symbol × Bytes)
  | [] => none
  | 0x78 :: rest => some (ofValue (hexNumber (rest.take 2)), rest.drop 2)
  | 0x75 :: rest => some (.char (Char.ofNat (hexNumber (rest.take 4))), rest.drop 4)
  | 0x55 :: rest => some (.char (Char.ofNat (hexNumber (rest.take 8))), rest.drop 8)
  | l :: rest => (ofLetter? l).map fun c => (.char c, rest)

/-- The first symbol that is shown, and what is behind it. -/
def shown? : Bytes → Option (Symbol × Bytes)
  | [] => none
  | b :: rest => if b = 0x5C then escape? rest else Utf8.decode (b :: rest)

/-- An escape of one letter is read back. -/
theorem escape_letter {c : Char} {l : Bytes} (h : letter? c = some l) (rest : Bytes) :
    escape? (l ++ rest) = some (.char c, rest) := by
  have hc : Char.ofNat c.toNat = c := Char.ofNat_toNat c
  unfold letter? at h
  split at h
  case h_10 => cases h
  all_goals
    next hn =>
    rw [hn] at hc
    cases h
    rw [← hc]
    rfl

/-- Digits of an escape are read back. -/
theorem hexNumber_take (places n : Nat) (h : n < Nat.pow 16 places) (rest : Bytes) :
    hexNumber ((hex places n ++ rest).take places) = n ∧ (hex places n ++ rest).drop places = rest := by
  have hl := length_hex places n
  rw [List.take_left' hl, List.drop_left' hl]
  exact ⟨hexNumber_hex h, rfl⟩

/-- A character without such an escape has no byte that has one. -/
theorem not_mem_encode_of_letter {c : Char} {b : UInt8} (h : letter? c = none)
    (hb : letter? (Char.ofNat b.toNat) ≠ none) (hlt : b.toNat < 0x80) : b ∉ Utf8.encode c := by
  intro hmem
  have hc : c = Char.ofNat b.toNat := by
    by_cases hlow : c.toNat < 0x80
    · rw [encode_of_lt hlow, List.mem_singleton] at hmem
      rw [hmem, Utf8.toNat_toUInt8 (by omega), Char.ofNat_toNat]
    · have := Utf8.le_of_mem_encode (by omega) hmem
      omega
  rw [← hc] at hb
  exact hb h

section Shown

variable {c : Char} {n : Nat} (rest : Bytes)

theorem shown_two (h : n < 0x100) : shown? (ascii "\\x" ++ hex 2 n ++ rest) = some (ofValue n, rest) := by
  obtain ⟨hn, hd⟩ := hexNumber_take 2 n h rest
  show some (ofValue (hexNumber ((hex 2 n ++ rest).take 2)), (hex 2 n ++ rest).drop 2) = _
  rw [hn, hd]

theorem shown_four (h : n < 0x10000) :
    shown? (ascii "\\u" ++ hex 4 n ++ rest) = some (.char (Char.ofNat n), rest) := by
  obtain ⟨hn, hd⟩ := hexNumber_take 4 n h rest
  show some (Symbol.char (Char.ofNat (hexNumber ((hex 4 n ++ rest).take 4))), (hex 4 n ++ rest).drop 4) = _
  rw [hn, hd]

theorem shown_eight (h : n < 0x100000000) :
    shown? (ascii "\\U" ++ hex 8 n ++ rest) = some (.char (Char.ofNat n), rest) := by
  obtain ⟨hn, hd⟩ := hexNumber_take 8 n h rest
  show some (Symbol.char (Char.ofNat (hexNumber ((hex 8 n ++ rest).take 8))), (hex 8 n ++ rest).drop 8) = _
  rw [hn, hd]

/-- A character without an escape of one letter does not start with a backslash. -/
theorem shown_encode (h : letter? c = none) : shown? (Utf8.encode c ++ rest) = some (.char c, rest) := by
  obtain ⟨b, more, hb⟩ := List.exists_cons_of_ne_nil (Utf8.encode_ne_nil c)
  have hne : b ≠ 0x5C := by
    rintro rfl
    exact not_mem_encode_of_letter h (by decide) (by decide) (hb ▸ List.mem_cons_self)
  have hs := Utf8.scan_encode c rest
  rw [hb, List.cons_append] at hs ⊢
  rw [shown?, if_neg hne, Utf8.decode, hs]

theorem shown_ofChar (c : Char) : shown? (ofChar c ++ rest) = some (.char c, rest) := by
  have hlt := Utf8.toNat_lt c
  rw [ofChar]
  split
  · next l hl => exact escape_letter hl rest
  · next hl =>
    split_ifs with _ hlow hshort
    · exact shown_encode rest hl
    · rw [shown_two rest (by omega), ofValue, if_pos hlow, Char.ofNat_toNat]
    · rw [shown_four rest hshort, Char.ofNat_toNat]
    · rw [shown_eight rest (by omega), Char.ofNat_toNat]

/-- A symbol is read back from how it is shown, whatever follows it. -/
theorem shown_ofSymbol {r : Symbol} (hr : r.Proper) : shown? (ofSymbol r ++ rest) = some (r, rest) := by
  cases r with
  | char c => exact shown_ofChar rest c
  | stray b =>
    have hlow : ¬ b.toNat < 0x80 := Nat.not_lt.2 hr
    rw [ofSymbol, shown_two rest b.toNat_lt, ofValue, if_neg hlow, Utf8.toUInt8_eq b rfl]

end Shown

/-! ## Whole texts -/

/-- Symbols are determined by how they are shown. -/
theorem eq_of_flatMap_ofSymbol {rs rs' : List Symbol} (hr : ∀ r ∈ rs, r.Proper) (hr' : ∀ r ∈ rs', r.Proper)
    (h : rs.flatMap ofSymbol = rs'.flatMap ofSymbol) : rs = rs' := by
  have read {r : Symbol} {rest : List Symbol} (hp : r.Proper) :
      shown? ((r :: rest).flatMap ofSymbol) = some (r, rest.flatMap ofSymbol) := by
    rw [List.flatMap_cons]
    exact shown_ofSymbol _ hp
  induction rs generalizing rs' with
  | nil =>
    cases rs' with
    | nil => rfl
    | cons r' rest' => cases (congrArg shown? h).trans (read (hr' r' List.mem_cons_self))
  | cons r rest ih =>
    have hs := (congrArg shown? h).symm.trans (read (hr r List.mem_cons_self))
    cases rs' with
    | nil => cases hs
    | cons r' rest' =>
      rw [read (hr' r' List.mem_cons_self), Option.some.injEq, Prod.mk.injEq] at hs
      rw [hs.1, ih (fun s hmem => hr s (List.mem_cons_of_mem _ hmem))
        (fun s hmem => hr' s (List.mem_cons_of_mem _ hmem)) hs.2.symm]

/-- A quoted text stands for one text. -/
theorem quote_injective {text text' : Bytes} (h : quote text = quote text') : text = text' := by
  have hs : (Utf8.symbols text).flatMap ofSymbol = (Utf8.symbols text').flatMap ofSymbol :=
    List.append_cancel_left (List.append_cancel_right h)
  have he := eq_of_flatMap_ofSymbol Utf8.proper_of_mem_symbols Utf8.proper_of_mem_symbols hs
  rw [← Utf8.flatMap_bytes_symbols text, he, Utf8.flatMap_bytes_symbols]

theorem feed_not_mem_ofChar (c : Char) : 0x0A ∉ ofChar c := by
  rw [ofChar]
  split
  · next l hl =>
    unfold letter? at hl
    split at hl <;> cases hl <;> decide
  · next hl =>
    split_ifs
    · exact not_mem_encode_of_letter hl (by decide) (by decide)
    all_goals
      rw [List.mem_append, not_or]
      exact ⟨by decide, feed_not_mem_hex _ _⟩

theorem feed_not_mem_ofSymbol (r : Symbol) : 0x0A ∉ ofSymbol r := by
  cases r with
  | char c => exact feed_not_mem_ofChar c
  | stray b =>
    rw [ofSymbol, List.mem_append, not_or]
    exact ⟨by decide, feed_not_mem_hex _ _⟩

/-- A quoted text is one line. -/
theorem feed_not_mem_quote (text : Bytes) : 0x0A ∉ quote text := by
  rw [quote, List.mem_append, List.mem_append, List.mem_flatMap]
  rintro ((h | ⟨r, _, hr⟩) | h)
  · exact absurd h (by decide)
  · exact feed_not_mem_ofSymbol r hr
  · exact absurd h (by decide)

end Quoted

end CallLang
