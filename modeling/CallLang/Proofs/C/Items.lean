import CallLang.C.Emission
import CallLang.Proofs.C.StringReading
import CallLang.Proofs.Token.Values

/-!
# Items of C text

The C text of a program is a row of items with nothing between them: statements, heads of functions, and the braces that
end functions. An item is told by its first byte: a brace, a quote or a digit, or the first letter of a word; after a
word, an opening parenthesis makes it a call, and a blank makes it a `return` or the head of a function.

- `item?` reads one item and returns the text behind it, `items?` reads all of them;
- `item_text`: an item is read back from its text, whatever follows it. A word and a numeral end where they are meant to
  since no byte that could go on with them follows;
- `items_texts`: so a row of items has one reading.
-/

namespace CallLang

/-- A literal that can be read back from its C text. -/
def Literal.Readable (v : Literal) : Prop :=
  v.kind = .string ∨ v.kind = .number ∧ IsNumeral v.text

namespace C

/-! ## Items and their texts -/

/-- A statement, the head of a function, or the end of one. -/
inductive Item where
  | literal (value : Literal)
  | call (name : Bytes) (argument : Option Literal)
  | opening (name : Bytes)
  | closing
deriving DecidableEq, Repr

namespace Item

/-- The text of an item. -/
def text : Item → Bytes
  | .literal value => value.toC ++ ascii ";"
  | .call name argument => Instr.callToC name argument.toList
  | .opening name => Instr.headToC name none
  | .closing => [Bytes.closeBrace]

/-- The text of a row of items. -/
def texts (items : List Item) : Bytes :=
  items.flatMap text

/-- An item of well-formed names and literals. -/
def Readable : Item → Prop
  | .literal value => value.Readable
  | .call name argument => IsName name ∧ ∀ v ∈ argument, v.Readable
  | .opening name => IsName name
  | .closing => True

end Item

/-! ## Reading one item -/

/-- What is behind a fixed word, if the text starts with it. -/
def after? (word text : Bytes) : Option Bytes :=
  if text.take word.length = word then some (text.drop word.length) else none

/-- A literal, and what is behind it. -/
def value? : Bytes → Option (Literal × Bytes)
  | [] => none
  | b :: rest =>
    if b = 0x22 then (string? (b :: rest)).map fun (bytes, behind) => (⟨.string, bytes⟩, behind)
    else if isDigitByte b then
      some (⟨.number, (b :: rest).takeWhile isDigitByte⟩, (b :: rest).dropWhile isDigitByte)
    else none

/-- The argument of a call, which may be left out, and what is behind it. -/
def argument? (text : Bytes) : Option Literal × Bytes :=
  match value? text with
  | some (v, behind) => (some v, behind)
  | none => (none, text)

/-- The argument of a call of `name` and the end of the call, which is `stop`. -/
def call? (name stop text : Bytes) : Option (Item × Bytes) :=
  (after? stop (argument? text).2).map fun behind => (.call name (argument? text).1, behind)

/-- The word for what a function returns. -/
def returnWord (name : Bytes) : Bytes :=
  if Instr.isMain name then ascii "int" else ascii "void"

/-- The rest of the head of a function that starts with the word `type`. -/
def head? (type text : Bytes) : Option (Item × Bytes) :=
  if type = returnWord (text.takeWhile isNamePart) then
    (after? (ascii "(void) " ++ [Bytes.openBrace]) (text.dropWhile isNamePart)).map fun behind =>
      (.opening (text.takeWhile isNamePart), behind)
  else none

/-- The rest of an item that starts with a word. -/
def named? (word : Bytes) : Bytes → Option (Item × Bytes)
  | [] => none
  | b :: rest =>
    if b = 0x28 then call? word (ascii ");") rest
    else if b = 0x20 then
      if word = ascii "return" then call? word (ascii ";") rest else head? word rest
    else none

/-- The first item of a text, and what is behind it. -/
def item? : Bytes → Option (Item × Bytes)
  | [] => none
  | b :: rest =>
    if b = 0x7D then some (.closing, rest)
    else if isNameStart b then named? ((b :: rest).takeWhile isNamePart) ((b :: rest).dropWhile isNamePart)
    else
      (value? (b :: rest)).bind fun (v, mid) => (after? (ascii ";") mid).map fun behind => (.literal v, behind)

/-! ## Reading takes text -/

section Lengths

variable {text rest : Bytes}

theorem after_eq_some_iff {word : Bytes} : after? word text = some rest ↔ text = word ++ rest := by
  unfold after?
  constructor
  · intro h
    split at h
    · next ht =>
      cases h
      exact (List.take_append_drop word.length text).symm.trans (by rw [ht])
    · cases h
  · rintro rfl
    simp

@[simp] theorem after_append (word rest : Bytes) : after? word (word ++ rest) = some rest :=
  after_eq_some_iff.2 rfl

theorem length_after {word : Bytes} (h : after? word text = some rest) :
    word.length + rest.length = text.length := by
  rw [after_eq_some_iff.1 h, List.length_append]

theorem length_value {v : Literal} (h : value? text = some (v, rest)) : rest.length ≤ text.length := by
  cases text with
  | nil => cases h
  | cons b text =>
    simp only [value?] at h
    split at h
    · next hb =>
      obtain ⟨⟨bytes, behind⟩, hs, he⟩ := Option.map_eq_some_iff.1 h
      cases he
      simp only [string?, hb, if_true] at hs
      exact Nat.le_succ_of_le (length_body hs)
    · split at h
      · cases h
        exact (List.dropWhile_sublist _).length_le
      · cases h

theorem length_argument (text : Bytes) : (argument? text).2.length ≤ text.length := by
  unfold argument?
  split
  · next hv => exact length_value hv
  · exact Nat.le_refl _

theorem length_call {name stop : Bytes} {i : Item} (h : call? name stop text = some (i, rest)) :
    rest.length ≤ text.length := by
  obtain ⟨behind, ha, he⟩ := Option.map_eq_some_iff.1 h
  cases he
  have h₁ := length_after ha
  have h₂ := length_argument text
  omega

theorem length_head {type : Bytes} {i : Item} (h : head? type text = some (i, rest)) : rest.length ≤ text.length := by
  unfold head? at h
  split at h
  · obtain ⟨behind, ha, he⟩ := Option.map_eq_some_iff.1 h
    cases he
    have h₁ := length_after ha
    have h₂ : (text.dropWhile isNamePart).length ≤ text.length := (List.dropWhile_sublist _).length_le
    omega
  · cases h

theorem length_named {word : Bytes} {i : Item} (h : named? word text = some (i, rest)) :
    rest.length < text.length := by
  cases text with
  | nil => cases h
  | cons b text =>
    refine Nat.lt_succ_of_le ?_
    simp only [named?] at h
    split at h
    · exact length_call h
    · split at h
      · split at h
        · exact length_call h
        · exact length_head h
      · cases h

/-- An item takes at least one byte. -/
theorem length_item {i : Item} (h : item? text = some (i, rest)) : rest.length < text.length := by
  cases text with
  | nil => cases h
  | cons b text =>
    simp only [item?] at h
    split at h
    · cases h
      simp
    · split at h
      · have hl : ((b :: text).dropWhile isNamePart).length ≤ (b :: text).length :=
          (List.dropWhile_sublist _).length_le
        exact Nat.lt_of_lt_of_le (length_named h) hl
      · obtain ⟨⟨v, mid⟩, hv, he⟩ := Option.bind_eq_some_iff.1 h
        obtain ⟨behind, ha, he⟩ := Option.map_eq_some_iff.1 he
        cases he
        have h₁ := length_value hv
        have h₂ : 1 + rest.length = mid.length := length_after ha
        omega

end Lengths

/-- The items of a text, up to its end. -/
def items? (text : Bytes) : Option (List Item) :=
  if text = [] then some []
  else
    match _h : item? text with
    | none => none
    | some (i, rest) => (items? rest).map (i :: ·)
termination_by text.length
decreasing_by exact length_item _h

/-! ## Reading what was written -/

section Written

variable {p : UInt8 → Bool} {word : Bytes} {b : UInt8} {v : Literal}

/-- A run of bytes ends at the first byte of another class. -/
theorem takeWhile_run (hw : ∀ a ∈ word, p a = true) (hb : p b = false) (rest : Bytes) :
    (word ++ b :: rest).takeWhile p = word ∧ (word ++ b :: rest).dropWhile p = b :: rest := by
  rw [List.takeWhile_append_of_pos hw, List.dropWhile_append_of_pos hw]
  simp [hb]

theorem value_toC (hv : v.Readable) (hb : isDigitByte b = false) (rest : Bytes) :
    value? (v.toC ++ b :: rest) = some (v, b :: rest) := by
  obtain ⟨kind, text⟩ := v
  rcases hv with rfl | ⟨rfl, hne, hd⟩
  · have h := string_stringLiteral text (b :: rest)
    rw [stringLiteral_append] at h
    show value? (stringLiteral text ++ b :: rest) = _
    rw [stringLiteral_append, value?, if_pos rfl, h]
    rfl
  · obtain ⟨a, digits, rfl⟩ := List.exists_cons_of_ne_nil hne
    have ha : isDigitByte a = true := hd a (by simp)
    have hq : a ≠ 0x22 := by
      rintro rfl
      cases ha
    have h := takeWhile_run hd hb rest
    simp only [List.cons_append] at h
    simp only [Literal.toC, List.cons_append, value?, hq, if_false, ha, if_true, h]

/-- Where no literal starts there is no argument. -/
theorem argument_toC {argument : Option Literal} (ha : ∀ v ∈ argument, v.Readable) (hb : isDigitByte b = false)
    (hq : b ≠ 0x22) (rest : Bytes) :
    argument? ((argument.map Literal.toC).getD [] ++ b :: rest) = (argument, b :: rest) := by
  cases argument with
  | none => simp [argument?, value?, hb, hq]
  | some v => simp [argument?, value_toC (ha v rfl) hb]

/-- The first byte of a name is read as such, and then the whole name. -/
theorem item_name (hn : IsName word) (hb : isNamePart b = false) (rest : Bytes) :
    item? (word ++ b :: rest) = named? word (b :: rest) := by
  have h := takeWhile_run hn.all hb rest
  obtain ⟨a, part, rfl, ha, _⟩ := hn
  have hc : a ≠ 0x7D := by
    rintro rfl
    cases ha
  simp only [List.cons_append] at h
  simp only [List.cons_append, item?, hc, if_false, ha, if_true, h]

theorem isName_returnWord (name : Bytes) : IsName (returnWord name) := by
  unfold returnWord
  split
  · exact ⟨_, _, rfl, by decide, List.all_eq_true.1 (by decide)⟩
  · exact ⟨_, _, rfl, by decide, List.all_eq_true.1 (by decide)⟩

theorem returnWord_ne_return (name : Bytes) : returnWord name ≠ ascii "return" := by
  unfold returnWord
  split <;> decide

/-- The text of a literal starts with a quote or a digit. -/
theorem toC_eq_cons (hv : v.Readable) :
    ∃ a tail, v.toC = a :: tail ∧ (a = 0x22 ∨ isDigitByte a = true) := by
  obtain ⟨kind, text⟩ := v
  rcases hv with rfl | ⟨rfl, hne, hd⟩
  · exact ⟨0x22, _, rfl, .inl rfl⟩
  · obtain ⟨a, digits, rfl⟩ := List.exists_cons_of_ne_nil hne
    exact ⟨a, digits, rfl, .inr (hd a (by simp))⟩

/-- What starts with a quote or a digit is no name and no brace. -/
theorem not_name_of_literal {a : UInt8} (h : a = 0x22 ∨ isDigitByte a = true) :
    a ≠ 0x7D ∧ isNameStart a = false := by
  rcases h with rfl | h
  · decide
  · simp only [isDigitByte, Bool.and_eq_true, decide_eq_true_eq, UInt8.le_iff_toNat_le] at h
    obtain ⟨h₁, h₂⟩ : 0x30 ≤ a.toNat ∧ a.toNat ≤ 0x39 := h
    constructor
    · intro he
      rw [he] at h₂
      exact absurd h₂ (by decide)
    · simp only [isNameStart, Bool.or_eq_false_iff, Bool.and_eq_false_iff, beq_eq_false_iff_ne, ne_eq,
        decide_eq_false_iff_not, UInt8.le_iff_toNat_le, ← UInt8.toNat_inj, UInt8.reduceToNat]
      omega

theorem item_literal (hv : v.Readable) (rest : Bytes) :
    item? (Item.text (.literal v) ++ rest) = some (.literal v, rest) := by
  have h := value_toC hv (show isDigitByte 0x3B = false by decide) rest
  obtain ⟨a, tail, ht, ha⟩ := toC_eq_cons hv
  obtain ⟨hc, hs⟩ := not_name_of_literal ha
  have he : Item.text (.literal v) ++ rest = a :: (tail ++ 0x3B :: rest) := by simp [Item.text, ht, ascii]
  rw [ht] at h
  simp only [List.cons_append] at h
  rw [he, item?, if_neg hc, if_neg (by simp [hs]), h]
  rfl

theorem item_call {name : Bytes} {argument : Option Literal} (hn : IsName name) (ha : ∀ v ∈ argument, v.Readable)
    (rest : Bytes) : item? (Item.text (.call name argument) ++ rest) = some (.call name argument, rest) := by
  by_cases hr : name = ascii "return"
  · subst hr
    have h := argument_toC ha (show isDigitByte 0x3B = false by decide) (by decide) rest
    have he : Item.text (.call (ascii "return") argument) ++ rest =
        ascii "return" ++ 0x20 :: ((argument.map Literal.toC).getD [] ++ 0x3B :: rest) := by
      cases argument <;> simp [Item.text, Instr.callToC, ascii]
    rw [he, item_name hn (by decide), named?, if_neg (by decide), if_pos rfl, if_pos rfl, call?, h]
    rfl
  · have h := argument_toC ha (show isDigitByte 0x29 = false by decide) (by decide) (0x3B :: rest)
    have he : Item.text (.call name argument) ++ rest =
        name ++ 0x28 :: ((argument.map Literal.toC).getD [] ++ 0x29 :: 0x3B :: rest) := by
      rw [Item.text, Instr.callToC, if_neg hr]
      cases argument <;> simp [Bytes.joined, ascii]
    rw [he, item_name hn (by decide), named?, if_pos rfl, call?, h]
    rfl

theorem item_opening {name : Bytes} (hn : IsName name) (rest : Bytes) :
    item? (Item.text (.opening name) ++ rest) = some (.opening name, rest) := by
  obtain ⟨ht, hd⟩ := takeWhile_run hn.all (show isNamePart 0x28 = false by decide)
    (ascii "void) " ++ Bytes.openBrace :: rest)
  have he : Item.text (.opening name) ++ rest =
      returnWord name ++ 0x20 :: (name ++ 0x28 :: (ascii "void) " ++ Bytes.openBrace :: rest)) := by
    simp [Item.text, Instr.headToC, Instr.parametersToC, returnWord, ascii]
  rw [he, item_name (isName_returnWord name) (by decide), named?, if_neg (by decide), if_pos rfl,
    if_neg (returnWord_ne_return name), head?, ht, hd, if_pos rfl]
  rfl

/-- An item is read back from its text, and what follows the text is left. -/
theorem item_text {i : Item} (h : i.Readable) (rest : Bytes) : item? (i.text ++ rest) = some (i, rest) := by
  cases i with
  | literal v => exact item_literal h rest
  | call name argument => exact item_call h.1 h.2 rest
  | opening name => exact item_opening h rest
  | closing => rfl

/-- A row of items is read back from its text. -/
theorem items_texts {items : List Item} (h : ∀ i ∈ items, i.Readable) : items? (Item.texts items) = some items := by
  induction items with
  | nil =>
    rw [items?]
    rfl
  | cons i items ih =>
    have hi := item_text (h i (by simp)) (Item.texts items)
    have hne : i.text ++ Item.texts items ≠ [] := by
      intro hnil
      rw [hnil] at hi
      cases hi
    rw [show Item.texts (i :: items) = i.text ++ Item.texts items from rfl, items?, if_neg hne]
    split
    · next hnone => cases hnone.symm.trans hi
    · next hsome =>
      cases hsome.symm.trans hi
      rw [ih fun j hj => h j (List.mem_cons_of_mem i hj)]
      rfl

end Written

end C

end CallLang
