import CallLang.Proofs.C.Composition
import CallLang.Proofs.Compiler.Places
import CallLang.Proofs.Compiler.Reading
import CallLang.Proofs.Program.Concatenation

/-!
# C text is clean whatever the source

The scanner reads characters, and bytes that belong to none become one, so the values of tokens are whole characters
(`Scanner.encoded_run`). The C text of a program has names and numbers of it as they are and its strings as literals
(`Instr.strings_items`), so it is composed of code and of literals of whole characters: it is UTF-8 without control
characters, and its quotes are those of the literals. `toC_clean` says so for a compiler.
-/

namespace CallLang

/-! ## The values of tokens -/

/-- A token whose value is whole characters. -/
def Token.Encoded (t : Token) : Prop :=
  ∃ cs, t.value = encoded cs

namespace Scanner

theorem encoded_lexeme (c : Char) (s : Scanner) : ∃ cs, (s.lexeme c).1.2 = encoded cs := by
  unfold lexeme
  split
  · exact ⟨_, rfl⟩
  · split
    · exact ⟨_, rfl⟩
    · split
      · next hd =>
        obtain ⟨b, hb, hbd⟩ := encode_digit hd
        dsimp only
        split
        · next n hr =>
          rw [encoded, List.flatMap_cons, hb] at hr
          obtain ⟨a, cs, he, _⟩ := exists_chars_of_isNumeral (isNumeral_signed (Integer.read_nonneg hbd hr))
          exact ⟨a :: cs, he⟩
        · exact ⟨_, rfl⟩
      · split
        · exact ⟨_, rfl⟩
        · exact ⟨_, rfl⟩

theorem encoded_token {s t : Scanner} {token : Token} (h : s.token? = (some token, t)) : token.Encoded := by
  unfold token? at h
  split at h
  · cases h
  · cases h
    exact encoded_lexeme _ _

/-- The value of each token of a run is whole characters. -/
theorem encoded_run (s : Scanner) : ∀ t ∈ s.run.1, t.Encoded := by
  fun_induction run s with
  | case1 => simp
  | case2 s token t ht tokens u hr ih =>
    rw [hr] at ih
    intro a ha
    rcases List.mem_cons.1 ha with rfl | ha
    · exact encoded_token ht
    · exact ih a ha

end Scanner

/-! ## The strings of a program -/

namespace Program

/-- The strings of a program, in order. -/
def strings (p : Program) : List Bytes :=
  (p.preorder.flatMap Instr.values).flatMap Literal.strings

end Program

namespace Instr

theorem strings_endItems (name : Bytes) (body : Option (List Instr)) :
    (endItems name body).flatMap C.Item.strings = [] := by
  unfold endItems
  split <;> rfl

mutual

/-- The items of an instruction have the strings of the instructions in it. -/
theorem strings_items (i : Instr) (h : i.Readable) :
    i.items.flatMap C.Item.strings = (i.preorder.flatMap values).flatMap Literal.strings :=
  match i, h with
  | .literal value _, _ => rfl
  | .importing _ _ _, _ => rfl
  | .function name _ body _ _, ⟨_, _, _, hb⟩ => by
    have hbody := strings_blockItems body hb
    rw [items, List.flatMap_cons, List.flatMap_append, hbody, strings_endItems, List.append_nil]
    rfl
  | .call name operands _, ⟨_, argument, ho, _⟩ => by
    simp [items, preorder, values, ho, C.Item.strings]

theorem strings_blockItems (block : Option (List Instr)) (h : ReadableBlock block) :
    (blockItems block).flatMap C.Item.strings = ((blockPreorder block).flatMap values).flatMap Literal.strings :=
  match block, h with
  | none, _ => rfl
  | some instrs, h => strings_allItems instrs h

theorem strings_allItems (instrs : List Instr) (h : AllReadable instrs) :
    (allItems instrs).flatMap C.Item.strings = ((allPreorder instrs).flatMap values).flatMap Literal.strings :=
  match instrs, h with
  | [], _ => rfl
  | i :: rest, ⟨hi, hrest⟩ => by
    rw [allItems, List.flatMap_append, strings_items i hi, strings_allItems rest hrest, allPreorder,
      List.flatMap_append, List.flatMap_append]

end

end Instr

/-- The C text of a program is composed of code and of its strings. -/
theorem Program.composed_bodyToC {p : Program} (hr : Instr.ReadableBlock p.instructions) :
    C.Composed p.strings p.bodyToC := by
  rw [bodyToC_eq_texts hr, strings, preorder, ← Instr.strings_blockItems p.instructions hr]
  exact C.Item.composed_texts (Instr.readable_blockItems p.instructions hr)

/-- The strings of a program are values of tokens. -/
theorem value_of_string {file : Bytes} {tokens : List Token} {tree : Tree} (h : parse file tokens = .ok tree) :
    ∀ s ∈ tree.lower.strings, ∃ t ∈ tokens, t.kind = .string ∧ t.value = s := by
  obtain ⟨ds, rfl, rfl⟩ := exists_derivation_of_parse h
  intro s hs
  rw [Program.strings, Derivation.values_tree, Derivation.visits_tree] at hs
  obtain ⟨value, hvalue, hs⟩ := List.mem_flatMap.1 hs
  obtain ⟨v, hv, hliteral⟩ := List.mem_filterMap.1 hvalue
  obtain ⟨place, hn⟩ := Node.eq_literal hliteral
  obtain ⟨t, ht, _, hled⟩ := Derivation.exists_leader hv
  rw [hn] at hled
  unfold Literal.strings at hs
  split at hs
  · next hk =>
    have hface : t.face = (.string, value.text) := by rw [hled.2, Literal.face, hk]
    obtain ⟨hkind, htext⟩ := Prod.mk.inj hface
    exact ⟨t, ht, hkind, htext.trans (List.mem_singleton.1 hs).symm⟩
  · cases hs

/-- The strings of the program of a source are whole characters. -/
theorem encoded_of_lowered {file : Bytes} {coming : List Delivery} {p : Program} (h : lowered file coming = .ok p) :
    ∀ s ∈ p.strings, ∃ cs, s = encoded cs := by
  unfold lowered at h
  cases hp : parse file (Scanner.ofDeliveries file coming).run.1 with
  | error e =>
    rw [hp] at h
    cases h
  | ok tree =>
    rw [hp] at h
    cases h
    intro s hs
    obtain ⟨t, ht, _, rfl⟩ := value_of_string hp s hs
    exact Scanner.encoded_run _ t ht

/-! ## C text -/

/-- **C text is clean whatever the source.** Behind the line of the include, if there is one, the C text of a source is
UTF-8 and has no control byte. It is composed of code and of the literals of the strings of the program, and a quote in it
that is not escaped opens or closes one of these literals. -/
theorem toC_clean (c : Compiler) (file : Bytes) (coming : List Delivery) (text : Bytes)
    (h : (c.toC file coming).result = .ok text) :
    (if C.included text then Program.includeLine else []) ++ C.withoutInclude text = text ∧
    Utf8.valid (C.withoutInclude text) = true ∧ (∀ b ∈ C.withoutInclude text, 0x20 ≤ b ∧ b ≠ 0x7F) ∧
    ∃ p, lowered file coming = .ok p ∧ C.Composed p.strings (C.withoutInclude text) ∧
      ∀ i, (C.withoutInclude text)[i]? = some 0x22 →
        ((C.withoutInclude text).take i).foldl C.Mode.next .code ≠ .escape →
        ∃ front s back, C.withoutInclude text = front ++ (C.stringLiteral s ++ back) ∧
          front.foldl C.Mode.next .code = .code ∧ s ∈ p.strings ∧
          (i = front.length ∨ i + 1 = (front ++ C.stringLiteral s).length) := by
  obtain ⟨p, hp, htext⟩ := Compiler.lowered_of_toC h
  have hr := readable_of_lowered hp
  have hcomposed := Program.composed_bodyToC hr
  have htidy := hcomposed.tidy (encoded_of_lowered hp)
  rw [← Program.withoutInclude_toC hr htext] at hcomposed htidy
  exact ⟨C.include_withoutInclude text, htidy.valid, htidy.no_control, p, hp, hcomposed, fun i => hcomposed.quote⟩

/-- A string of an invalid byte, a control byte, a quote, a backslash and a wide character, in a call of `exit`. -/
theorem toC_clean_string :
    let source := ascii "exit(\"" ++ [0xFF, 0x01] ++ ascii "\\\"\\\\" ++ [0xC3, 0xA9] ++ ascii "\");"
    let literal := ascii "\"" ++ [0xEF, 0xBF, 0xBD] ++ ascii "\\001\\\"\\\\" ++ [0xC3, 0xA9] ++ ascii "\""
    let text := Program.includeLine ++ (ascii "exit(" ++ literal ++ ascii ");")
    (Compiler.toC {} [] [⟨source, none⟩]).result = .ok text ∧
    C.withoutInclude text = ascii "exit(" ++ literal ++ ascii ");" ∧
    Utf8.valid (C.withoutInclude text) = true ∧ (∀ b ∈ C.withoutInclude text, 0x20 ≤ b ∧ b ≠ 0x7F) ∧
    (C.withoutInclude text)[5]? = some 0x22 ∧
    ∃ p, lowered [] [⟨source, none⟩] = .ok p ∧ C.Composed p.strings (C.withoutInclude text) ∧
      ∃ front s back, C.withoutInclude text = front ++ (C.stringLiteral s ++ back) ∧ s ∈ p.strings ∧
        (5 = front.length ∨ 5 + 1 = (front ++ C.stringLiteral s).length) := by
  intro source literal text
  have hresult : (Compiler.toC {} [] [⟨source, none⟩]).result = .ok text := by decide +kernel
  have hbody : C.withoutInclude text = ascii "exit(" ++ literal ++ ascii ");" := by decide +kernel
  have hquote : (C.withoutInclude text)[5]? = some 0x22 := by decide +kernel
  have hmode : ((C.withoutInclude text).take 5).foldl C.Mode.next .code ≠ .escape := by decide +kernel
  obtain ⟨_, hvalid, hcontrol, p, hp, hcomposed, hquotes⟩ := toC_clean {} [] [⟨source, none⟩] text hresult
  obtain ⟨front, s, back, hsplit, _, hs, hi⟩ := hquotes 5 hquote hmode
  exact ⟨hresult, hbody, hvalid, hcontrol, hquote, p, hp, hcomposed, front, s, back, hsplit, hs, hi⟩

end CallLang
