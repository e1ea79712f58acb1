import CallLang.C.StringLiteral
import Mathlib.Data.List.TakeWhile
import Mathlib.Tactic.SplitIfs

/-!
# Reading C string literals

The rules of C for what stands between two quotes: a backslash with one of `"`, `\`, `n`, `t`, `r` is one byte, a
backslash with octal digits is the byte they are worth, and any other byte is itself. An octal escape takes as many
digits as there are, up to three.

- `unit?` reads what stands for one byte, `string?` reads a literal, and both return the text behind it;
- `unit_stringByte`: a byte is read back from its form, whatever follows, since an octal escape is written with all
  three digits and takes no more;
- `string_stringLiteral`: so is a string.
-/

namespace CallLang.C

/-- An octal digit. -/
def isOctal (b : UInt8) : Bool :=
  0x30 ≤ b && b ≤ 0x37

/-- What octal digits are worth. -/
def octalValue (digits : Bytes) : Nat :=
  digits.foldl (fun n b => 8 * n + (b.toNat - 0x30)) 0

/-- The digits of an octal escape: as many as there are, up to three. -/
def octalRun (text : Bytes) : Bytes :=
  (text.take 3).takeWhile isOctal

/-- The byte that a backslash and the text behind it stand for, and what is left. -/
def escaped? : Bytes → Option (UInt8 × Bytes)
  | 0x22 :: rest => some (0x22, rest)
  | 0x5C :: rest => some (0x5C, rest)
  | 0x6E :: rest => some (0x0A, rest)
  | 0x74 :: rest => some (0x09, rest)
  | 0x72 :: rest => some (0x0D, rest)
  | text =>
    if octalRun text = [] ∨ 256 ≤ octalValue (octalRun text) then none
    else some ((octalValue (octalRun text)).toUInt8, text.drop (octalRun text).length)

/-- The first byte of a string, and what is left. There is none at a quote. -/
def unit? : Bytes → Option (UInt8 × Bytes)
  | [] => none
  | b :: rest => if b = 0x22 then none else if b = 0x5C then escaped? rest else some (b, rest)

theorem length_escaped {text rest : Bytes} {b : UInt8} (h : escaped? text = some (b, rest)) :
    rest.length < text.length := by
  unfold escaped? at h
  split at h
  case h_6 =>
    split at h
    · cases h
    · next hd =>
      cases h
      have hn : (octalRun text).length ≠ 0 := fun h0 => hd (.inl (List.length_eq_zero_iff.1 h0))
      have hl : (octalRun text).length ≤ text.length :=
        ((List.takeWhile_sublist _).trans (List.take_sublist 3 text)).length_le
      rw [List.length_drop]
      omega
  all_goals
    cases h
    simp

theorem length_unit {text rest : Bytes} {b : UInt8} (h : unit? text = some (b, rest)) :
    rest.length < text.length := by
  cases text with
  | nil => cases h
  | cons a text =>
    simp only [unit?] at h
    split at h
    · cases h
    · split at h
      · exact Nat.lt_succ_of_lt (length_escaped h)
      · cases h
        simp

/-- The bytes of a string up to its closing quote, and what is behind the quote. -/
def body? (text : Bytes) : Option (Bytes × Bytes) :=
  if text.head? = some 0x22 then some ([], text.tail)
  else
    match _h : unit? text with
    | none => none
    | some (b, rest) => (body? rest).map fun (bytes, behind) => (b :: bytes, behind)
termination_by text.length
decreasing_by exact length_unit _h

/-- The bytes of a string literal, and what is behind it. -/
def string? : Bytes → Option (Bytes × Bytes)
  | [] => none
  | b :: rest => if b = 0x22 then body? rest else none

theorem length_body {text bytes rest : Bytes} (h : body? text = some (bytes, rest)) : rest.length ≤ text.length := by
  fun_induction body? text generalizing bytes with
  | case1 text _ =>
    cases h
    simp
  | case2 => cases h
  | case3 text _ b mid hu ih =>
    obtain ⟨⟨bytes', rest'⟩, hb, he⟩ := Option.map_eq_some_iff.1 h
    cases he
    exact Nat.le_trans (ih hb) (Nat.le_of_lt (length_unit hu))

/-! ## Reading what was written -/

theorem isOctal_of_mem_octal {b d : UInt8} (h : d ∈ octal b) : isOctal d = true := by
  simp only [octal, List.mem_cons, List.not_mem_nil, or_false] at h
  simp only [isOctal, Bool.and_eq_true, decide_eq_true_eq, UInt8.le_iff_toNat_le]
  have hb := b.toNat_lt
  rcases h with rfl | rfl | rfl <;>
    simp only [UInt8.toNat_add, UInt8.toNat_div, UInt8.toNat_mod, UInt8.reduceToNat, Nat.reducePow] <;> omega

theorem octalRun_octal (b : UInt8) (rest : Bytes) : octalRun (octal b ++ rest) = octal b := by
  have ht : (octal b ++ rest).take 3 = octal b := by
    rw [List.take_append_of_le_length (by simp [octal])]
    rfl
  rw [octalRun, ht]
  exact List.takeWhile_eq_self_iff.2 fun _ => isOctal_of_mem_octal

theorem octalValue_octal (b : UInt8) : octalValue (octal b) = b.toNat := by
  have hb := b.toNat_lt
  simp only [octalValue, octal, List.foldl_cons, List.foldl_nil, UInt8.toNat_add, UInt8.toNat_div, UInt8.toNat_mod,
    UInt8.reduceToNat, Nat.reducePow]
  omega

/-- The three digits of a byte are read as the byte, also in front of another digit. -/
theorem escaped_octal (b : UInt8) (rest : Bytes) : escaped? (octal b ++ rest) = some (b, rest) := by
  have hr := octalRun_octal b rest
  have hv := octalValue_octal b
  have hb := b.toNat_lt
  unfold escaped?
  split
  case h_6 =>
    rw [hr, hv, if_neg (by simp [octal]; omega)]
    simp
  all_goals
    next he =>
    exfalso
    rw [he] at hr
    have hh := congrArg List.head? hr
    simp [octalRun, isOctal, octal] at hh

/-- A byte is read back from its form in a string literal, whatever follows. -/
theorem unit_stringByte (b : UInt8) (rest : Bytes) : unit? (stringByte b ++ rest) = some (b, rest) := by
  unfold stringByte
  split_ifs with h₁ h₂ h₃ h₄ h₅ h₆
  · subst h₁; rfl
  · subst h₂; rfl
  · subst h₃; rfl
  · subst h₄; rfl
  · subst h₅; rfl
  · exact escaped_octal b rest
  · simp [unit?, h₁, h₂]

/-- The form of a byte does not start with a quote. -/
theorem head_stringByte (b : UInt8) (rest : Bytes) : (stringByte b ++ rest).head? ≠ some 0x22 := by
  have h := unit_stringByte b rest
  intro hq
  obtain ⟨tail, ht⟩ := List.head?_eq_some_iff.1 hq
  rw [ht] at h
  cases h

theorem body_flatMap (bytes rest : Bytes) : body? (bytes.flatMap stringByte ++ 0x22 :: rest) = some (bytes, rest) := by
  induction bytes with
  | nil =>
    rw [body?]
    rfl
  | cons b bytes ih =>
    rw [List.flatMap_cons, List.append_assoc, body?, if_neg (head_stringByte b _)]
    split
    · next hu =>
      rw [unit_stringByte] at hu
      cases hu
    · next hu =>
      rw [unit_stringByte] at hu
      cases hu
      rw [ih]
      rfl

theorem stringLiteral_append (bytes rest : Bytes) :
    stringLiteral bytes ++ rest = 0x22 :: (bytes.flatMap stringByte ++ 0x22 :: rest) := by
  simp [stringLiteral, ascii]

theorem stringLiteral_eq (bytes : Bytes) : stringLiteral bytes = 0x22 :: (bytes.flatMap stringByte ++ [0x22]) := by
  rw [← List.append_nil (stringLiteral bytes), stringLiteral_append]

/-- A string is read back from its literal, and what follows the literal is left. -/
theorem string_stringLiteral (bytes rest : Bytes) : string? (stringLiteral bytes ++ rest) = some (bytes, rest) := by
  rw [stringLiteral_append, string?, if_pos rfl]
  exact body_flatMap bytes rest

end CallLang.C
