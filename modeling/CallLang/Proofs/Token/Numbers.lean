import CallLang.Proofs.Token.Spelling

/-!
# What numbers are worth

A number in a source is a run of digits. It is worth less than `2 ^ 63`, or it would not be a number; its value as a
token is what it is worth, in decimal and without leading zeros (`value_of_number`).

- `numeralValue` is what digits are worth, whatever their number, and `digitsAt` are the digits at an offset of a text;
- `Integer.read_of_numeral`: digits are read as what they are worth if this fits;
- `Integer.read_eq_ok_iff`: what is read as an integer is digits, with a sign or without (`Integer.Denotes`);
- `decimal_head`, `numeralValue_decimal`: the digits of a number, and what they are worth.
-/

namespace CallLang

/-- What a run of digits is worth. -/
def numeralValue (digits : Bytes) : Nat :=
  digits.foldl (fun n b => n * 10 + (b.toNat - 0x30)) 0

/-- The digits that stand at an offset of a text. -/
def digitsAt (text : Bytes) (offset : Nat) : Bytes :=
  (text.drop offset).takeWhile isDigitByte

namespace Integer

/-- Digits are worth at least what stands before them. -/
theorem le_foldl (digits : Bytes) (n : Nat) : n ≤ digits.foldl (fun n b => n * 10 + (b.toNat - 0x30)) n := by
  induction digits generalizing n with
  | nil => exact Nat.le_refl n
  | cons b digits ih =>
    have hnext := ih (n * 10 + (b.toNat - 0x30))
    rw [List.foldl_cons]
    omega

/-- What is read from left to right is what the digits are worth, up to a bound. Digits that pass the bound are not read
on, and what they are worth does not come back below it. -/
theorem magnitude_eq {digits : Bytes} (hd : ∀ b ∈ digits, isDigitByte b = true) {n : Nat}
    (hn : n < 0x10000000000000000) :
    let value := digits.foldl (fun n b => n * 10 + (b.toNat - 0x30)) n
    magnitude n digits = if value < 0x10000000000000000 then .value value else .tooLarge := by
  induction digits generalizing n with
  | nil =>
    rw [magnitude]
    exact (if_pos hn).symm
  | cons b digits ih =>
    intro value
    obtain ⟨hb, hdigits⟩ := List.forall_mem_cons.1 hd
    rw [magnitude, if_pos hb]
    by_cases hm : n * 10 + (b.toNat - 0x30) < 0x10000000000000000
    · exact (if_pos hm).trans (ih hdigits hm)
    · have hle : n * 10 + (b.toNat - 0x30) ≤ value := le_foldl digits _
      rw [if_neg (show ¬ value < 0x10000000000000000 by omega)]
      exact if_neg hm

/-- Digits are read as what they are worth, if this fits. -/
theorem read_of_numeral {digits : Bytes} (hd : IsNumeral digits) :
    read digits = if numeralValue digits < 0x8000000000000000 then .ok (numeralValue digits : Int)
      else .error (.outOfRange greatest) := by
  have hm : magnitude 0 digits =
      if numeralValue digits < 0x10000000000000000 then .value (numeralValue digits) else .tooLarge :=
    magnitude_eq hd.2 (by decide)
  obtain ⟨b, rest, rfl⟩ := List.exists_cons_of_ne_nil hd.1
  simp only [read, splitSign_of_digit (hd.2 b List.mem_cons_self), Bool.false_eq_true, if_false, List.cons_ne_nil, hm]
  generalize numeralValue (b :: rest) = value
  by_cases hfits : value < 0x8000000000000000
  · have hrange : least ≤ (value : Int) ∧ (value : Int) ≤ greatest := by
      rw [least, greatest]
      omega
    rw [if_pos hfits, if_pos (show value < 0x10000000000000000 by omega)]
    exact if_pos hrange
  · have hrange : ¬ (least ≤ (value : Int) ∧ (value : Int) ≤ greatest) := by
      rw [least, greatest]
      omega
    rw [if_neg hfits]
    by_cases hbound : value < 0x10000000000000000
    · rw [if_pos hbound]
      exact if_neg hrange
    · rw [if_neg hbound]

/-- A text that is an integer in decimal: digits, or one sign and digits. -/
inductive Denotes : (text : Bytes) → (n : Int) → Prop where
  | plain {digits : Bytes} (h : IsNumeral digits) : Denotes digits (numeralValue digits)
  | plus {digits : Bytes} (h : IsNumeral digits) : Denotes (0x2B :: digits) (numeralValue digits)
  | minus {digits : Bytes} (h : IsNumeral digits) : Denotes (0x2D :: digits) (-numeralValue digits)

theorem digits_of_magnitude {digits : Bytes} {n m : Nat} (h : magnitude n digits = .value m) :
    ∀ b ∈ digits, isDigitByte b = true := by
  induction digits generalizing n with
  | nil => exact fun _ hb => nomatch hb
  | cons b digits ih =>
    simp only [magnitude] at h
    split at h
    · next hb =>
      split at h
      · exact List.forall_mem_cons.2 ⟨hb, ih h⟩
      · cases h
    · cases h

theorem magnitude_eq_value_iff {digits : Bytes} {m : Nat} :
    magnitude 0 digits = .value m ↔
      (∀ b ∈ digits, isDigitByte b = true) ∧ m = numeralValue digits ∧ m < 0x10000000000000000 := by
  constructor
  · intro h
    have hdigits := digits_of_magnitude h
    rw [magnitude_eq hdigits (by decide)] at h
    split at h
    · next hlt =>
      cases h
      exact ⟨hdigits, rfl, hlt⟩
    · cases h
  · rintro ⟨hdigits, rfl, hlt⟩
    rw [magnitude_eq hdigits (by decide)]
    exact if_pos hlt

theorem splitSign_cases (text : Bytes) :
    (∃ digits, text = 0x2B :: digits ∧ splitSign text = (false, digits)) ∨
      (∃ digits, text = 0x2D :: digits ∧ splitSign text = (true, digits)) ∨ splitSign text = (false, text) := by
  unfold splitSign
  split
  · exact .inl ⟨_, rfl, rfl⟩
  · exact .inr (.inl ⟨_, rfl, rfl⟩)
  · exact .inr (.inr rfl)

/-- What is read behind the sign. -/
theorem read_of_splitSign {text digits : Bytes} {negative : Bool} {n : Int} (hs : splitSign text = (negative, digits)) :
    read text = .ok n ↔
      IsNumeral digits ∧ n = (if negative then -(numeralValue digits : Int) else numeralValue digits) ∧
        least ≤ n ∧ n ≤ greatest := by
  simp only [read, hs]
  by_cases hnil : digits = []
  · simp [hnil, IsNumeral]
  · rw [if_neg hnil]
    constructor
    · intro h
      split at h
      · cases h
      · cases h
      · next m hm =>
        obtain ⟨hdigits, rfl, _⟩ := magnitude_eq_value_iff.1 hm
        generalize (if negative then -(numeralValue digits : Int) else numeralValue digits) = value at h ⊢
        by_cases hrange : least ≤ value ∧ value ≤ greatest
        · rw [if_pos hrange] at h
          cases h
          exact ⟨⟨hnil, hdigits⟩, rfl, hrange⟩
        · rw [if_neg hrange] at h
          cases h
    · rintro ⟨⟨_, hdigits⟩, rfl, hrange⟩
      have hm : magnitude 0 digits = .value (numeralValue digits) := by
        refine magnitude_eq_value_iff.2 ⟨hdigits, rfl, ?_⟩
        rw [least, greatest] at hrange
        cases negative <;> simp only [Bool.false_eq_true, if_false, if_true] at hrange <;> omega
      rw [hm]
      exact if_pos hrange

/-- What is read is an integer in decimal that fits in 64 bits. -/
theorem read_eq_ok_iff {text : Bytes} {n : Int} :
    read text = .ok n ↔ Denotes text n ∧ least ≤ n ∧ n ≤ greatest := by
  constructor
  · intro h
    rcases splitSign_cases text with ⟨digits, rfl, hs⟩ | ⟨digits, rfl, hs⟩ | hs <;>
      obtain ⟨hdigits, rfl, hrange⟩ := (read_of_splitSign hs).1 h
    · exact ⟨.plus hdigits, hrange⟩
    · exact ⟨.minus hdigits, hrange⟩
    · exact ⟨.plain hdigits, hrange⟩
  · rintro ⟨hd, hrange⟩
    cases hd with
    | plain hdigits =>
      obtain ⟨b, rest, rfl⟩ := List.exists_cons_of_ne_nil hdigits.1
      exact (read_of_splitSign (splitSign_of_digit (hdigits.2 b List.mem_cons_self))).2 ⟨hdigits, rfl, hrange⟩
    | plus hdigits => exact (read_of_splitSign rfl).2 ⟨hdigits, rfl, hrange⟩
    | minus hdigits => exact (read_of_splitSign rfl).2 ⟨hdigits, rfl, hrange⟩

end Integer

/-! ## Decimals -/

/-- The value of the digits of a number is the number. -/
theorem numeralValue_decimal (n : Nat) : numeralValue (decimal n) = n := by
  induction n using Nat.strongRecOn with
  | ind n ih =>
    have hdigit {d : Nat} (hd : d < 10) : (digitByte d).toNat - 0x30 = d := by
      rw [digitByte, Utf8.toNat_toUInt8 (by omega), Nat.add_sub_cancel_left]
    rw [decimal]
    split
    · next hn =>
      show 0 * 10 + ((digitByte n).toNat - 0x30) = n
      rw [hdigit hn]
      omega
    · next hn =>
      have hhead := ih (n / 10) (by omega)
      rw [numeralValue] at hhead ⊢
      rw [List.foldl_append, hhead, List.foldl_cons, List.foldl_nil, hdigit (by omega)]
      omega

/-- Only zero has a leading zero. -/
theorem decimal_head {n : Nat} (h : (decimal n).head? = some 0x30) : n = 0 := by
  induction n using Nat.strongRecOn with
  | ind n ih =>
    rw [decimal] at h
    split at h
    · next hn =>
      have hb : digitByte n = 0x30 := Option.some.inj h
      have hnat := congrArg UInt8.toNat hb
      rw [digitByte, Utf8.toNat_toUInt8 (by omega)] at hnat
      have h48 : (0x30 : UInt8).toNat = 0x30 := rfl
      omega
    · next hn =>
      obtain ⟨b, rest, hb⟩ := List.exists_cons_of_ne_nil (isNumeral_decimal (n / 10)).1
      have hzero := ih (n / 10) (by omega)
      rw [hb] at h hzero
      have := hzero h
      omega

/-! ## Number tokens -/

/-- A number of a text is a run of digits with its value, which fits. -/
theorem value_of_number {file text : Bytes} {t : Token} (h : t ∈ tokenize file text) (hk : t.kind = .number) :
    digitsAt text t.start ≠ [] ∧ numeralValue (digitsAt text t.start) < 0x8000000000000000 ∧
      t.value = decimal (numeralValue (digitsAt text t.start)) := by
  obtain ⟨p, rest, hc⟩ := exists_covers h
  obtain ⟨hnumeral, hdigits, n, hread, hvalue⟩ := hc.number hk
  rw [digitsAt, hdigits]
  rw [Integer.read_of_numeral hnumeral] at hread
  split at hread
  · next hlt =>
    cases hread
    exact ⟨hnumeral.1, hlt, hvalue.trans (signed_natCast _)⟩
  · cases hread

end CallLang
