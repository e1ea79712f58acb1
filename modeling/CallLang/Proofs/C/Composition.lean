import CallLang.Proofs.C.Reading
import CallLang.Proofs.Source.Lines
import CallLang.Proofs.Token.Words

/-!
# Code and string literals in C text

The C text of a program is code with whole string literals in it (`C.Composed`): the code has letters, digits, a few
signs and blanks, and every quote and every backslash belongs to a literal.

- `C.Mode` goes through a text by the rules of C and tells code, the inside of a string, and what a backslash escapes;
- `C.Composed.quote`: a quote that no backslash escapes opens or closes one of the literals;
- `C.Composed.tidy`: if the strings are whole characters, so is the text, and none of its characters is a control
  character, since literals escape them (`C.tidy_stringLiteral`);
- `C.Item.composed`: the texts of items are composed so.
-/

namespace CallLang

namespace C

/-! ## Composed texts -/

/-- A byte of C text outside string literals. -/
def isCodeByte (b : UInt8) : Bool :=
  isNamePart b || (ascii " (),;" ++ [Bytes.openBrace, Bytes.closeBrace]).contains b

/-- A text of code and of the literals of some strings, in order. -/
inductive Composed : (strings : List Bytes) → (text : Bytes) → Prop where
  | nil : Composed [] []
  | code {b : UInt8} {strings : List Bytes} {text : Bytes} (hb : isCodeByte b = true) (h : Composed strings text) :
      Composed strings (b :: text)
  | string (s : Bytes) {strings : List Bytes} {text : Bytes} (h : Composed strings text) :
      Composed (s :: strings) (stringLiteral s ++ text)

variable {strings others : List Bytes} {text more : Bytes}

theorem Composed.append (h : Composed strings text) (ho : Composed others more) :
    Composed (strings ++ others) (text ++ more) := by
  induction h with
  | nil => exact ho
  | code hb _ ih => exact .code hb ih
  | string s _ ih =>
    rw [List.cons_append, List.append_assoc]
    exact .string s ih

/-- Code behind a composed text. -/
theorem Composed.before_code (h : Composed strings text) (hc : Composed [] more) : Composed strings (text ++ more) := by
  rw [← List.append_nil strings]
  exact h.append hc

theorem composed_code (h : text.all isCodeByte = true) : Composed [] text := by
  induction text with
  | nil => exact .nil
  | cons b text ih =>
    rw [List.all_cons, Bool.and_eq_true] at h
    exact .code h.1 (ih h.2)

theorem composed_name (h : IsName text) : Composed [] text :=
  composed_code (List.all_eq_true.2 fun b hb => Bool.or_eq_true_iff.2 (.inl (h.all b hb)))

theorem composed_numeral (h : IsNumeral text) : Composed [] text := by
  apply composed_code
  rw [List.all_eq_true]
  intro b hb
  exact Bool.or_eq_true_iff.2 (.inl (Bool.or_eq_true_iff.2 (.inr (h.2 b hb))))

theorem composed_stringLiteral (s : Bytes) : Composed [s] (stringLiteral s) := by
  rw [← List.append_nil (stringLiteral s)]
  exact .string s .nil

/-! ## Quotes -/

/-- Where a C text is: in code, in a string, or behind the backslash of an escape sequence. -/
inductive Mode where
  | code
  | string
  | escape
deriving DecidableEq, Repr

/-- The mode behind one more byte. -/
def Mode.next : Mode → UInt8 → Mode
  | .code, b => if b = 0x22 then .string else .code
  | .string, b => if b = 0x22 then .code else if b = 0x5C then .escape else .string
  | .escape, _ => .string

theorem ne_quote_of_isCodeByte {b : UInt8} (h : isCodeByte b = true) : b ≠ 0x22 := by
  rintro rfl
  exact absurd h (by decide)

/-- A byte stands for itself in a string, or an escape sequence stands for it: a backslash, a byte, and octal digits. -/
theorem stringByte_cases (b : UInt8) :
    (stringByte b = [b] ∧ 0x20 ≤ b.toNat ∧ b ≠ 0x7F ∧ b ≠ 0x22 ∧ b ≠ 0x5C) ∨
    ∃ e digits, stringByte b = 0x5C :: e :: digits ∧ (0x20 ≤ e.toNat ∧ e.toNat < 0x7F) ∧
      ∀ d ∈ digits, isOctal d = true := by
  unfold stringByte
  split_ifs with h₁ h₂ h₃ h₄ h₅ h₆
  · exact .inr ⟨0x22, [], rfl, by decide, nofun⟩
  · exact .inr ⟨0x5C, [], rfl, by decide, nofun⟩
  · exact .inr ⟨0x6E, [], rfl, by decide, nofun⟩
  · exact .inr ⟨0x74, [], rfl, by decide, nofun⟩
  · exact .inr ⟨0x72, [], rfl, by decide, nofun⟩
  · have hdigit : ∀ d ∈ octal b, isOctal d = true := fun _ => isOctal_of_mem_octal
    obtain ⟨hfirst, hrest⟩ := List.forall_mem_cons.1 hdigit
    simp only [isOctal, Bool.and_eq_true, decide_eq_true_eq, UInt8.le_iff_toNat_le, UInt8.reduceToNat] at hfirst
    exact .inr ⟨_, _, rfl, by omega, hrest⟩
  · obtain ⟨hlow, h7⟩ := not_or.1 h₆
    simp only [UInt8.lt_iff_toNat_lt, UInt8.reduceToNat] at hlow
    exact .inl ⟨rfl, by omega, h7, h₁, h₂⟩

theorem foldl_octal {digits : Bytes} (h : ∀ d ∈ digits, isOctal d = true) :
    digits.foldl Mode.next .string = .string := by
  induction digits with
  | nil => rfl
  | cons d digits ih =>
    have hq : d ≠ 0x22 := by
      rintro rfl
      exact absurd (h _ List.mem_cons_self) (by decide)
    have hb : d ≠ 0x5C := by
      rintro rfl
      exact absurd (h _ List.mem_cons_self) (by decide)
    rw [List.foldl_cons, Mode.next, if_neg hq, if_neg hb]
    exact ih fun a ha => h a (List.mem_cons_of_mem _ ha)

/-- The form of a byte is whole inside a string. -/
theorem foldl_stringByte (b : UInt8) : (stringByte b).foldl Mode.next .string = .string := by
  rcases stringByte_cases b with ⟨hs, _, _, hq, hb⟩ | ⟨e, digits, hs, _, hd⟩
  · rw [hs, List.foldl_cons, Mode.next, if_neg hq, if_neg hb]
    rfl
  · rw [hs]
    show digits.foldl Mode.next .string = .string
    exact foldl_octal hd

theorem foldl_flatMap_stringByte (s : Bytes) : (s.flatMap stringByte).foldl Mode.next .string = .string := by
  induction s with
  | nil => rfl
  | cons b s ih => rw [List.flatMap_cons, List.foldl_append, foldl_stringByte, ih]

/-- Behind a string literal there is code again. -/
theorem foldl_stringLiteral (s : Bytes) : (stringLiteral s).foldl Mode.next .code = .code := by
  rw [stringLiteral, List.foldl_append, List.foldl_append]
  show (ascii "\"").foldl Mode.next ((s.flatMap stringByte).foldl Mode.next .string) = .code
  rw [foldl_flatMap_stringByte]
  rfl

/-- A quote in the form of a byte is behind a backslash. -/
theorem mode_of_quote_stringByte {b : UInt8} {i : Nat} (h : (stringByte b)[i]? = some 0x22) :
    ((stringByte b).take i).foldl Mode.next .string = .escape := by
  rcases stringByte_cases b with ⟨hs, _, _, hq, _⟩ | ⟨e, digits, hs, _, hd⟩
  · rw [hs] at h
    have hmem := List.mem_singleton.1 (List.mem_of_getElem? h)
    exact absurd hmem.symm hq
  · rw [hs] at h ⊢
    match i with
    | 0 => cases h
    | 1 => rfl
    | i + 2 => exact absurd (hd _ (List.mem_of_getElem? h)) (by decide)

/-- A quote between the quotes of a literal is behind a backslash. -/
theorem mode_of_quote {s : Bytes} {i : Nat} (h : (s.flatMap stringByte)[i]? = some 0x22) :
    ((s.flatMap stringByte).take i).foldl Mode.next .string = .escape := by
  induction s generalizing i with
  | nil => cases h
  | cons b s ih =>
    rw [List.flatMap_cons] at h ⊢
    by_cases hi : i < (stringByte b).length
    · rw [List.getElem?_append_left hi] at h
      rw [List.take_append_of_le_length (by omega)]
      exact mode_of_quote_stringByte h
    · rw [List.getElem?_append_right (by omega)] at h
      rw [List.take_append, List.take_of_length_le (by omega), List.foldl_append, foldl_stringByte]
      exact ih h

/-- A quote in a literal that no backslash escapes is its first or its last byte. -/
theorem quote_of_stringLiteral {s : Bytes} {i : Nat} (h : (stringLiteral s)[i]? = some 0x22)
    (hm : ((stringLiteral s).take i).foldl Mode.next .code ≠ .escape) : i = 0 ∨ i + 1 = (stringLiteral s).length := by
  rw [stringLiteral_eq] at h hm ⊢
  cases i with
  | zero => exact .inl rfl
  | succ i =>
    right
    rw [List.getElem?_cons_succ] at h
    by_cases hi : i < (s.flatMap stringByte).length
    · rw [List.getElem?_append_left hi] at h
      rw [List.take_succ_cons, List.foldl_cons, List.take_append_of_le_length (by omega)] at hm
      exact absurd (mode_of_quote h) hm
    · have hlt := (List.getElem?_eq_some_iff.1 h).1
      simp only [List.length_cons, List.length_append, List.length_nil] at hlt ⊢
      omega

/-- A quote that no backslash escapes opens or closes a literal. -/
theorem Composed.quote (h : Composed strings text) {i : Nat} (hq : text[i]? = some 0x22)
    (hm : (text.take i).foldl Mode.next .code ≠ .escape) :
    ∃ front s back, text = front ++ (stringLiteral s ++ back) ∧ front.foldl Mode.next .code = .code ∧ s ∈ strings ∧
      (i = front.length ∨ i + 1 = (front ++ stringLiteral s).length) := by
  induction h generalizing i with
  | nil => cases hq
  | @code b strings text hb _ ih =>
    have hne := ne_quote_of_isCodeByte hb
    cases i with
    | zero => exact absurd (Option.some.inj hq) hne
    | succ i =>
      have hnext : Mode.next .code b = .code := by rw [Mode.next, if_neg hne]
      rw [List.take_succ_cons, List.foldl_cons, hnext] at hm
      obtain ⟨front, s, back, rfl, hcode, hs, hi⟩ := ih hq hm
      refine ⟨b :: front, s, back, rfl, by rw [List.foldl_cons, hnext, hcode], hs, ?_⟩
      rcases hi with rfl | hi
      · exact .inl rfl
      · exact .inr (by rw [hi]; rfl)
  | @string s strings text _ ih =>
    by_cases hi : i < (stringLiteral s).length
    · rw [List.getElem?_append_left hi] at hq
      rw [List.take_append_of_le_length (by omega)] at hm
      exact ⟨[], s, text, rfl, rfl, List.mem_cons_self, quote_of_stringLiteral hq hm⟩
    · rw [List.getElem?_append_right (by omega)] at hq
      rw [List.take_append, List.take_of_length_le (by omega), List.foldl_append, foldl_stringLiteral] at hm
      obtain ⟨front, s', back, rfl, hcode, hs, hj⟩ := ih hq hm
      refine ⟨stringLiteral s ++ front, s', back, by simp, ?_, List.mem_cons_of_mem _ hs, ?_⟩
      · rw [List.foldl_append, foldl_stringLiteral, hcode]
      · simp only [List.length_append] at hj ⊢
        omega

/-! ## Characters that show -/

/-- Whole characters, and no control character of ASCII among them. -/
def Tidy (text : Bytes) : Prop :=
  ∃ cs, text = encoded cs ∧ ∀ c ∈ cs, 0x20 ≤ c.toNat ∧ c.toNat ≠ 0x7F

theorem tidy_nil : Tidy [] :=
  ⟨[], rfl, nofun⟩

theorem Tidy.append (h : Tidy text) (hm : Tidy more) : Tidy (text ++ more) := by
  obtain ⟨cs, rfl, hcs⟩ := h
  obtain ⟨ds, rfl, hds⟩ := hm
  exact ⟨cs ++ ds, List.flatMap_append.symm, fun c hc => (List.mem_append.1 hc).elim (hcs c) (hds c)⟩

theorem tidy_of_printable (h : ∀ b ∈ text, 0x20 ≤ b.toNat ∧ b.toNat < 0x7F) : Tidy text := by
  induction text with
  | nil => exact tidy_nil
  | cons b text ih =>
    have hb := h b List.mem_cons_self
    obtain ⟨c, hc, he⟩ := exists_char_of_lt (show b.toNat < 0x80 by omega)
    have hsingle : Tidy [b] := ⟨[c], by simp [encoded, he], by simp only [List.mem_singleton, forall_eq]; omega⟩
    exact hsingle.append (ih fun a ha => h a (List.mem_cons_of_mem _ ha))

/-- Tidy text is UTF-8. -/
theorem Tidy.valid (h : Tidy text) : Utf8.valid text = true := by
  obtain ⟨cs, rfl, _⟩ := h
  rw [Utf8.valid, symbols_encoded, List.all_map]
  exact List.all_eq_true.2 fun _ _ => rfl

/-- Tidy text has no control byte. -/
theorem Tidy.no_control (h : Tidy text) : ∀ b ∈ text, 0x20 ≤ b ∧ b ≠ 0x7F := by
  obtain ⟨cs, rfl, hcs⟩ := h
  intro b hb
  obtain ⟨c, hc, hbc⟩ := List.mem_flatMap.1 hb
  have hshow := hcs c hc
  rw [UInt8.le_iff_toNat_le, ne_eq, ← UInt8.toNat_inj]
  show 0x20 ≤ b.toNat ∧ b.toNat ≠ 0x7F
  by_cases hlt : c.toNat < 0x80
  · rw [encode_of_lt hlt, List.mem_singleton] at hbc
    rw [hbc, Utf8.toNat_toUInt8 (by omega)]
    exact hshow
  · have := Utf8.le_of_mem_encode (by omega) hbc
    omega

/-- Bytes from 128 on stand for themselves in a string. -/
theorem flatMap_stringByte_of_le (h : ∀ b ∈ text, 0x80 ≤ b.toNat) : text.flatMap stringByte = text := by
  induction text with
  | nil => rfl
  | cons b text ih =>
    have hb := h b List.mem_cons_self
    have hne {a : UInt8} (ha : a.toNat < 0x80) : b ≠ a := by
      rintro rfl
      omega
    have hcontrol : ¬ (b < 0x20 ∨ b = 0x7F) := by
      rintro (hlt | rfl)
      · simp only [UInt8.lt_iff_toNat_lt, UInt8.reduceToNat] at hlt
        omega
      · exact absurd hb (by decide)
    have hbyte : stringByte b = [b] := by
      rw [stringByte, if_neg (hne (by decide)), if_neg (hne (by decide)), if_neg (hne (by decide)),
        if_neg (hne (by decide)), if_neg (hne (by decide)), if_neg hcontrol]
    rw [List.flatMap_cons, hbyte, ih fun a ha => h a (List.mem_cons_of_mem _ ha)]
    rfl

/-- The form of a byte below 128 shows. -/
theorem tidy_stringByte {b : UInt8} (hb : b.toNat < 0x80) : Tidy (stringByte b) := by
  apply tidy_of_printable
  rcases stringByte_cases b with ⟨hs, hlow, h7, _, _⟩ | ⟨e, digits, hs, he, hd⟩
  · rw [hs]
    intro a ha
    rw [List.mem_singleton.1 ha]
    have : b.toNat ≠ 0x7F := fun h => h7 (UInt8.toNat_inj.1 h)
    omega
  · rw [hs]
    simp only [List.forall_mem_cons]
    refine ⟨by decide, he, ?_⟩
    intro d hmem
    have hoctal := hd d hmem
    simp only [isOctal, Bool.and_eq_true, decide_eq_true_eq, UInt8.le_iff_toNat_le, UInt8.reduceToNat] at hoctal
    omega

theorem tidy_flatMap_stringByte (cs : List Char) : Tidy ((encoded cs).flatMap stringByte) := by
  induction cs with
  | nil => exact tidy_nil
  | cons c cs ih =>
    rw [encoded, List.flatMap_cons, List.flatMap_append]
    refine Tidy.append ?_ ih
    by_cases hc : c.toNat < 0x80
    · rw [encode_of_lt hc, List.flatMap_singleton]
      exact tidy_stringByte (by rw [Utf8.toNat_toUInt8 (by omega)]; omega)
    · rw [flatMap_stringByte_of_le fun b hb => Utf8.le_of_mem_encode (by omega) hb]
      exact ⟨[c], (List.append_nil _).symm, by simp only [List.mem_singleton, forall_eq]; omega⟩

/-- The literal of whole characters is tidy, whatever they are. -/
theorem tidy_stringLiteral (cs : List Char) : Tidy (stringLiteral (encoded cs)) := by
  have hquote : Tidy (ascii "\"") := tidy_of_printable (List.forall_mem_singleton.2 (by decide))
  exact (hquote.append (tidy_flatMap_stringByte cs)).append hquote

theorem printable_of_isCodeByte {b : UInt8} (h : isCodeByte b = true) : 0x20 ≤ b.toNat ∧ b.toNat < 0x7F := by
  rcases Bool.or_eq_true_iff.1 h with hname | hsign
  · rcases Bool.or_eq_true_iff.1 hname with hstart | hdigit
    · simp only [isNameStart, Bool.or_eq_true, Bool.and_eq_true, beq_iff_eq, decide_eq_true_eq, UInt8.le_iff_toNat_le,
        ← UInt8.toNat_inj, UInt8.reduceToNat] at hstart
      omega
    · simp only [isDigitByte, Bool.and_eq_true, decide_eq_true_eq, UInt8.le_iff_toNat_le, UInt8.reduceToNat] at hdigit
      omega
  · have hall : (ascii " (),;" ++ [Bytes.openBrace, Bytes.closeBrace]).all
        (fun a => 0x20 ≤ a.toNat ∧ a.toNat < 0x7F) = true := by decide
    exact of_decide_eq_true (List.all_eq_true.1 hall b (List.contains_iff_mem.1 hsign))

/-- Code is tidy, and so are the literals of whole characters in it. -/
theorem Composed.tidy (h : Composed strings text) (hs : ∀ s ∈ strings, ∃ cs, s = encoded cs) : Tidy text := by
  induction h with
  | nil => exact tidy_nil
  | @code b strings text hb _ ih =>
    have hsingle : Tidy [b] := by
      apply tidy_of_printable
      intro a ha
      rw [List.mem_singleton.1 ha]
      exact printable_of_isCodeByte hb
    exact hsingle.append (ih hs)
  | @string s strings text _ ih =>
    obtain ⟨cs, rfl⟩ := hs s List.mem_cons_self
    exact (tidy_stringLiteral cs).append (ih fun s' hs' => hs s' (List.mem_cons_of_mem _ hs'))

end C

/-! ## The texts of items -/

/-- The string of a literal that is one. -/
def Literal.strings (v : Literal) : List Bytes :=
  match v.kind with
  | .string => [v.text]
  | _ => []

theorem Literal.Readable.composed {v : Literal} (h : v.Readable) : C.Composed v.strings v.toC := by
  unfold strings toC
  rcases h with hk | ⟨hk, hn⟩
  · simp only [hk]
    exact C.composed_stringLiteral v.text
  · simp only [hk]
    exact C.composed_numeral hn

namespace C.Item

/-- The strings of an item. -/
def strings : Item → List Bytes
  | .literal value => value.strings
  | .call _ argument => argument.toList.flatMap Literal.strings
  | .opening _ => []
  | .closing => []

theorem composed_call {name : Bytes} {argument : Option Literal} (hn : IsName name)
    (ha : ∀ v ∈ argument, v.Readable) :
    Composed (argument.toList.flatMap Literal.strings) (Instr.callToC name argument.toList) := by
  have hword : Composed [] (ascii "return ") := composed_code (by decide)
  have hstop : Composed [] (ascii ";") := composed_code (by decide)
  have hopen : Composed [] (name ++ ascii "(") := (composed_name hn).append (composed_code (by decide))
  have hclose : Composed [] (ascii ");") := composed_code (by decide)
  have hvalue : Composed (argument.toList.flatMap Literal.strings) ((argument.map Literal.toC).getD []) := by
    cases argument with
    | none => exact .nil
    | some v =>
      rw [Option.toList_some, List.flatMap_singleton]
      exact (ha v rfl).composed
  unfold Instr.callToC
  split
  · cases argument <;> exact (hword.append hvalue).before_code hstop
  · cases argument <;> exact (hopen.append hvalue).before_code hclose

theorem composed_opening {name : Bytes} (hn : IsName name) : Composed [] (Instr.headToC name none) := by
  have htype : Composed [] (if Instr.isMain name then ascii "int" else ascii "void") := by
    split <;> exact composed_code (by decide)
  have hblank : Composed [] (ascii " ") := composed_code (by decide)
  have hopen : Composed [] (ascii "(") := composed_code (by decide)
  have hvoid : Composed [] (Instr.parametersToC none) := composed_code (by decide)
  have hclose : Composed [] (ascii ") ") := composed_code (by decide)
  have hbrace : Composed [] [Bytes.openBrace] := composed_code (by decide)
  exact (((((htype.append hblank).append (composed_name hn)).append hopen).append hvoid).append hclose).append hbrace

/-- The text of an item is code and the literals of its strings. -/
theorem composed {i : Item} (h : i.Readable) : Composed i.strings i.text := by
  cases i with
  | literal value => exact (Literal.Readable.composed h).before_code (composed_code (by decide))
  | call name argument => exact composed_call h.1 h.2
  | opening name => exact composed_opening h
  | closing => exact composed_code (by decide)

theorem composed_texts {items : List Item} (h : ∀ i ∈ items, i.Readable) :
    Composed (items.flatMap strings) (texts items) := by
  induction items with
  | nil => exact .nil
  | cons i items ih =>
    exact (composed (h i List.mem_cons_self)).append (ih fun j hj => h j (List.mem_cons_of_mem _ hj))

end C.Item

end CallLang
