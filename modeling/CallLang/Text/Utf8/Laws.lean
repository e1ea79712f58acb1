import CallLang.Text.Utf8

/-!
# Laws of the cut into symbols

- `scan_encode`: the sequence of a character is found as that character, whatever follows;
- `eq_encode_of_scan`: a character is only found where its sequence stands;
- `bytes_of_decode`, `flatMap_bytes_symbols`: the symbols of a text make up the text.

Everything is brought down to natural numbers: a leading byte announces an interval for the second byte, and with it the
code point lies in the range that `encode` writes with as many bytes (`encode_two`, `encode_three`, `encode_four`).
-/

namespace CallLang.Utf8

/-! ## Bytes and characters as numbers -/

theorem toNat_ofNat {n : Nat} (h : n.isValidChar) : (Char.ofNat n).toNat = n := by
  rw [Char.ofNat, dif_pos h]
  rfl

theorem toNat_toUInt8 {n : Nat} (h : n < 256) : n.toUInt8.toNat = n := by
  rw [Nat.toUInt8_eq, UInt8.toNat_ofNat']
  omega

theorem toUInt8_eq (a : UInt8) {n : Nat} (h : n = a.toNat) : n.toUInt8 = a := by
  subst h; simp

theorem toNat_lt (c : Char) : c.toNat < 0x110000 := by
  have hv := c.valid
  unfold UInt32.isValidChar Nat.isValidChar at hv
  have : c.toNat = c.val.toNat := rfl
  omega

/-! ## Sequences that are found -/

/-- One more byte of a sequence. -/
theorem continued_eq_whole_iff {owed n : Nat} {low high : UInt8} {bytes rest : Bytes} {c : Char} :
    continued (owed + 1) low high n bytes = .whole c rest ↔
      ∃ b more, bytes = b :: more ∧ low.toNat ≤ b.toNat ∧ b.toNat ≤ high.toNat ∧
        continued owed 0x80 0xBF (n * 64 + (b.toNat - 0x80)) more = .whole c rest := by
  cases bytes with
  | nil => simp [continued]
  | cons b more =>
    simp only [continued, UInt8.le_iff_toNat_le]
    split
    · next h =>
      constructor
      · intro hc
        exact ⟨b, more, rfl, h.1, h.2, hc⟩
      · rintro ⟨_, _, he, _, _, hc⟩
        cases he
        exact hc
    · next h =>
      constructor
      · intro hc
        cases hc
      · rintro ⟨_, _, he, h1, h2, _⟩
        cases he
        exact absurd ⟨h1, h2⟩ h

theorem continued_zero {n : Nat} {low high : UInt8} {bytes rest : Bytes} {c : Char} :
    continued 0 low high n bytes = .whole c rest ↔ c = Char.ofNat n ∧ rest = bytes := by
  simp [continued, eq_comm]

theorem encode_two {n : Nat} (h1 : 0x80 ≤ n) (h2 : n < 0x800) :
    encode (Char.ofNat n) = [(0xC0 + n / 64).toUInt8, (0x80 + n % 64).toUInt8] := by
  unfold encode
  rw [toNat_ofNat (Or.inl (by omega))]
  rw [if_neg (by omega), if_pos (by omega)]

theorem encode_three {n : Nat} (h1 : 0x800 ≤ n) (h2 : n < 0x10000) (hv : n.isValidChar) :
    encode (Char.ofNat n) =
      [(0xE0 + n / 4096).toUInt8, (0x80 + n / 64 % 64).toUInt8, (0x80 + n % 64).toUInt8] := by
  unfold encode
  rw [toNat_ofNat hv]
  rw [if_neg (by omega), if_neg (by omega), if_pos (by omega)]

theorem encode_four {n : Nat} (h1 : 0x10000 ≤ n) (hv : n.isValidChar) :
    encode (Char.ofNat n) =
      [(0xF0 + n / 262144).toUInt8, (0x80 + n / 4096 % 64).toUInt8, (0x80 + n / 64 % 64).toUInt8,
        (0x80 + n % 64).toUInt8] := by
  unfold encode
  rw [toNat_ofNat hv]
  rw [if_neg (by omega), if_neg (by omega), if_neg (by omega)]

theorem eq_encode_of_one {low high : UInt8} {share : Nat} {bytes rest : Bytes} {c : Char}
    (hlow : 0x80 ≤ low.toNat) (hhigh : high.toNat ≤ 0xBF) (h1 : 2 ≤ share) (h2 : share < 32)
    (h : continued 1 low high share bytes = .whole c rest) :
    (0xC0 + share).toUInt8 :: bytes = encode c ++ rest := by
  obtain ⟨b, more, hb, hbl, hbh, h⟩ := continued_eq_whole_iff.1 h
  obtain ⟨hc, hr⟩ := continued_zero.1 h
  rw [hc, hr, hb, encode_two (by omega) (by omega)]
  simp only [List.cons_append, List.nil_append, List.cons.injEq, and_true]
  exact ⟨congrArg Nat.toUInt8 (by omega), (toUInt8_eq _ (by omega)).symm⟩

theorem eq_encode_of_two {low high : UInt8} {share : Nat} {bytes rest : Bytes} {c : Char}
    (hlow : 0x80 ≤ low.toNat) (hhigh : high.toNat ≤ 0xBF) (h1 : share = 0 → 0xA0 ≤ low.toNat)
    (h2 : share = 13 → high.toNat ≤ 0x9F) (h3 : share < 16)
    (h : continued 2 low high share bytes = .whole c rest) :
    (0xE0 + share).toUInt8 :: bytes = encode c ++ rest := by
  obtain ⟨b, more, hb, hbl, hbh, h⟩ := continued_eq_whole_iff.1 h
  obtain ⟨d, more', hd, hdl, hdh, h⟩ := continued_eq_whole_iff.1 h
  obtain ⟨hc, hr⟩ := continued_zero.1 h
  simp only [UInt8.reduceToNat] at hdl hdh
  rw [hc, hr, hb, hd, encode_three (by omega) (by omega) (by unfold Nat.isValidChar; omega)]
  simp only [List.cons_append, List.nil_append, List.cons.injEq, and_true]
  exact ⟨congrArg Nat.toUInt8 (by omega), (toUInt8_eq _ (by omega)).symm, (toUInt8_eq _ (by omega)).symm⟩

theorem eq_encode_of_three {low high : UInt8} {share : Nat} {bytes rest : Bytes} {c : Char}
    (hlow : 0x80 ≤ low.toNat) (hhigh : high.toNat ≤ 0xBF) (h1 : share = 0 → 0x90 ≤ low.toNat)
    (h2 : share = 4 → high.toNat ≤ 0x8F) (h3 : share ≤ 4)
    (h : continued 3 low high share bytes = .whole c rest) :
    (0xF0 + share).toUInt8 :: bytes = encode c ++ rest := by
  obtain ⟨b, more, hb, hbl, hbh, h⟩ := continued_eq_whole_iff.1 h
  obtain ⟨d, more', hd, hdl, hdh, h⟩ := continued_eq_whole_iff.1 h
  obtain ⟨e, more'', he, hel, heh, h⟩ := continued_eq_whole_iff.1 h
  obtain ⟨hc, hr⟩ := continued_zero.1 h
  simp only [UInt8.reduceToNat] at hdl hdh hel heh
  rw [hc, hr, hb, hd, he, encode_four (by omega) (by unfold Nat.isValidChar; omega)]
  simp only [List.cons_append, List.nil_append, List.cons.injEq, and_true]
  exact ⟨congrArg Nat.toUInt8 (by omega), (toUInt8_eq _ (by omega)).symm, (toUInt8_eq _ (by omega)).symm,
    (toUInt8_eq _ (by omega)).symm⟩

theorem encode_of_continued {l : Lead} {a : UInt8} {bytes rest : Bytes} {c : Char} (hl : lead? a = some l)
    (h : continued l.follow l.low l.high l.share bytes = .whole c rest) : a :: bytes = encode c ++ rest := by
  unfold lead? at hl
  have ha := a.toNat_lt
  simp only [UInt8.lt_iff_toNat_lt, ← UInt8.toNat_inj, UInt8.reduceToNat] at hl
  split at hl
  · cases hl
  split at hl
  · cases hl
    dsimp only at h
    rw [← eq_encode_of_one (by decide) (by decide) (by omega) (by omega) h]
    rw [toUInt8_eq a (by omega)]
  split at hl
  · cases hl
    dsimp only at h
    rw [← eq_encode_of_two (by decide) (by decide) (by decide) (by omega) (by omega) h]
    rw [toUInt8_eq a (by omega)]
  split at hl
  · cases hl
    dsimp only at h
    rw [← eq_encode_of_two (by decide) (by decide) (by omega) (by decide) (by omega) h]
    rw [toUInt8_eq a (by omega)]
  split at hl
  · cases hl
    dsimp only at h
    rw [← eq_encode_of_two (by decide) (by decide) (by omega) (by omega) (by omega) h]
    rw [toUInt8_eq a (by omega)]
  split at hl
  · cases hl
    dsimp only at h
    rw [← eq_encode_of_three (by decide) (by decide) (by decide) (by omega) (by omega) h]
    rw [toUInt8_eq a (by omega)]
  split at hl
  · cases hl
    dsimp only at h
    rw [← eq_encode_of_three (by decide) (by decide) (by omega) (by omega) (by omega) h]
    rw [toUInt8_eq a (by omega)]
  split at hl
  · cases hl
    dsimp only at h
    rw [← eq_encode_of_three (by decide) (by decide) (by omega) (by decide) (by omega) h]
    rw [toUInt8_eq a (by omega)]
  · cases hl

/-- A character is only found where its whole sequence stands. -/
theorem eq_encode_of_scan {bytes rest : Bytes} {c : Char} (h : scan bytes = .whole c rest) :
    bytes = encode c ++ rest := by
  cases bytes with
  | nil => cases h
  | cons a bytes =>
    simp only [scan] at h
    split at h
    · next ha =>
      cases h
      have ha : a.toNat < 128 := UInt8.lt_iff_toNat_lt.1 ha
      unfold encode
      rw [toNat_ofNat (Or.inl (by omega)), if_pos ha]
      simp
    · split at h
      · cases h
      · next hl => exact encode_of_continued hl h

/-! ## Sequences that are written -/

theorem lead_two {n : Nat} (h1 : 2 ≤ n) (h2 : n < 32) :
    lead? (0xC0 + n).toUInt8 = some ⟨1, n, 0x80, 0xBF⟩ := by
  have ha : (0xC0 + n).toUInt8.toNat = 0xC0 + n := toNat_toUInt8 (by omega)
  simp only [lead?, UInt8.lt_iff_toNat_lt, ← UInt8.toNat_inj, UInt8.reduceToNat, ha]
  rw [if_neg (by omega), if_pos (by omega), Nat.add_sub_cancel_left]

/-- The interval of the second byte after the leading byte `0xE0 + n`. -/
theorem lead_three {n : Nat} (h : n < 16) :
    ∃ low high : UInt8, lead? (0xE0 + n).toUInt8 = some ⟨2, n, low, high⟩ ∧
    low.toNat = (if n = 0 then 0xA0 else 0x80) ∧ high.toNat = (if n = 13 then 0x9F else 0xBF) := by
  have ha : (0xE0 + n).toUInt8.toNat = 0xE0 + n := toNat_toUInt8 (by omega)
  simp only [lead?, UInt8.lt_iff_toNat_lt, ← UInt8.toNat_inj, UInt8.reduceToNat, ha]
  rw [if_neg (by omega), if_neg (by omega)]
  by_cases h0 : n = 0
  · subst h0; exact ⟨0xA0, 0xBF, rfl, rfl, rfl⟩
  by_cases h13 : n = 13
  · subst h13; exact ⟨0x80, 0x9F, rfl, rfl, rfl⟩
  rw [if_neg (by omega), if_neg (by omega), if_pos (by omega), Nat.add_sub_cancel_left, if_neg h0, if_neg h13]
  exact ⟨0x80, 0xBF, rfl, rfl, rfl⟩

/-- The interval of the second byte after the leading byte `0xF0 + n`. -/
theorem lead_four {n : Nat} (h : n ≤ 4) :
    ∃ low high : UInt8, lead? (0xF0 + n).toUInt8 = some ⟨3, n, low, high⟩ ∧
    low.toNat = (if n = 0 then 0x90 else 0x80) ∧ high.toNat = (if n = 4 then 0x8F else 0xBF) := by
  have ha : (0xF0 + n).toUInt8.toNat = 0xF0 + n := toNat_toUInt8 (by omega)
  simp only [lead?, UInt8.lt_iff_toNat_lt, ← UInt8.toNat_inj, UInt8.reduceToNat, ha]
  rw [if_neg (by omega), if_neg (by omega), if_neg (by omega), if_neg (by omega), if_neg (by omega)]
  by_cases h0 : n = 0
  · subst h0; exact ⟨0x90, 0xBF, rfl, rfl, rfl⟩
  by_cases h4 : n = 4
  · subst h4; exact ⟨0x80, 0x8F, rfl, rfl, rfl⟩
  rw [if_neg (by omega), if_pos (by omega), Nat.add_sub_cancel_left, if_neg h0, if_neg h4]
  exact ⟨0x80, 0xBF, rfl, rfl, rfl⟩

/-- The sequence of a character is found as that character, whatever follows. -/
theorem scan_encode (c : Char) (rest : Bytes) : scan (encode c ++ rest) = .whole c rest := by
  obtain ⟨n, hn⟩ : ∃ n, n = c.toNat := ⟨_, rfl⟩
  have hv : n.isValidChar := by rw [hn]; exact c.valid
  have hc : c = Char.ofNat n := by rw [hn, Char.ofNat_toNat]
  have hv' := hv
  unfold Nat.isValidChar at hv'
  have last : (0x80 + n % 64).toUInt8.toNat = 0x80 + n % 64 := toNat_toUInt8 (by omega)
  have middle : (0x80 + n / 64 % 64).toUInt8.toNat = 0x80 + n / 64 % 64 := toNat_toUInt8 (by omega)
  have second : (0x80 + n / 4096 % 64).toUInt8.toNat = 0x80 + n / 4096 % 64 := toNat_toUInt8 (by omega)
  by_cases h1 : n < 0x80
  · have ha : n.toUInt8.toNat = n := toNat_toUInt8 (by omega)
    simp only [encode, ← hn, if_pos h1, List.cons_append, List.nil_append, scan, UInt8.lt_iff_toNat_lt, ha,
      UInt8.reduceToNat]
    rw [hc]
  by_cases h2 : n < 0x800
  · have ha : (0xC0 + n / 64).toUInt8.toNat = 0xC0 + n / 64 := toNat_toUInt8 (by omega)
    rw [hc, encode_two (by omega) h2]
    simp only [List.cons_append, List.nil_append, scan, UInt8.lt_iff_toNat_lt, ha, UInt8.reduceToNat]
    rw [if_neg (by omega), lead_two (by omega) (by omega)]
    simp only [continued_eq_whole_iff, continued_zero]
    refine ⟨_, _, rfl, ?_, ?_, congrArg Char.ofNat ?_, rfl⟩ <;> simp only [last, UInt8.reduceToNat] <;> omega
  by_cases h3 : n < 0x10000
  · have ha : (0xE0 + n / 4096).toUInt8.toNat = 0xE0 + n / 4096 := toNat_toUInt8 (by omega)
    obtain ⟨low, high, hl, hlow, hhigh⟩ := lead_three (n := n / 4096) (by omega)
    rw [hc, encode_three (by omega) h3 hv]
    simp only [List.cons_append, List.nil_append, scan, UInt8.lt_iff_toNat_lt, ha, UInt8.reduceToNat]
    rw [if_neg (by omega), hl]
    simp only [continued_eq_whole_iff, continued_zero]
    refine ⟨_, _, rfl, ?_, ?_, _, _, rfl, ?_, ?_, congrArg Char.ofNat ?_, rfl⟩ <;>
      simp only [last, middle, hlow, hhigh, UInt8.reduceToNat] <;> (try split) <;> omega
  · have ha : (0xF0 + n / 262144).toUInt8.toNat = 0xF0 + n / 262144 := toNat_toUInt8 (by omega)
    obtain ⟨low, high, hl, hlow, hhigh⟩ := lead_four (n := n / 262144) (by omega)
    rw [hc, encode_four (by omega) hv]
    simp only [List.cons_append, List.nil_append, scan, UInt8.lt_iff_toNat_lt, ha, UInt8.reduceToNat]
    rw [if_neg (by omega), hl]
    simp only [continued_eq_whole_iff, continued_zero]
    refine ⟨_, _, rfl, ?_, ?_, _, _, rfl, ?_, ?_, _, _, rfl, ?_, ?_, congrArg Char.ofNat ?_, rfl⟩ <;>
      simp only [last, middle, second, hlow, hhigh, UInt8.reduceToNat] <;> (try split) <;> omega

/-! ## Symbols -/

/-- A symbol that is taken off is the head of the text. -/
theorem bytes_of_decode {bytes rest : Bytes} {r : Symbol} (h : decode bytes = some (r, rest)) :
    bytes = r.bytes ++ rest := by
  cases bytes with
  | nil => cases h
  | cons b bytes =>
    simp only [decode] at h
    split at h
    · next hs => cases h; exact eq_encode_of_scan hs
    · cases h; rfl

/-- The symbols of a text make up the text. -/
theorem flatMap_bytes_symbols (bytes : Bytes) : (symbols bytes).flatMap Symbol.bytes = bytes := by
  fun_induction symbols bytes with
  | case1 bytes h => exact (decode_eq_none_iff.1 h).symm
  | case2 bytes r rest h ih => rw [List.flatMap_cons, ih, bytes_of_decode h]

end CallLang.Utf8
