import CallLang.Proofs.C.Items

/-!
# Programs from C text

A program can be read back from its C text, but for what the text does not show: the name of the file, the places,
whether an empty list is there or left out, the imports, and whether a `main` that falls off its end was written with
`return(0)`. `Program.plain` is the program without these differences.

- `Instr.items` are the items of the text of an instruction (`toC_eq_texts`), a function being the head, the items of its
  body and a brace;
- `C.nest` puts items together again, with a stack of the functions that are still open (`nest_items`);
- `C.program?` reads a program, with or without the line of the include, and `program_toC` says that it returns the
  plain program if the names, the literals and the arguments are those a source can have (`Instr.Readable`).
-/

namespace CallLang

namespace Instr

/-! ## Plain programs -/

/-- A `main` that no call leaves, so that it ends with a `return` of its own. -/
def fallsThrough (name : Bytes) (body : Option (List Instr)) : Bool :=
  isMain name && !callsBlock isLeaving body

/-- The exit code of a `main` that falls through. -/
def zero : Literal :=
  ⟨.number, ascii "0"⟩

/-- The instructions that are implied at the end of a function. -/
def implied (name : Bytes) (body : Option (List Instr)) : List Instr :=
  if fallsThrough name body then [.call (ascii "return") (some [zero]) none] else []

mutual

/-- An instruction without what its C text does not show: no places, no missing lists, no imports, and what is implied
at the end of a function written out. -/
def plain : Instr → List Instr
  | .missing => [.missing]
  | .literal value _ => [.literal value none]
  | .importing _ _ _ => []
  | .function name parameters body type _ =>
    [.function name (some (plainBlock parameters)) (some (plainBlock body ++ implied name body)) type none]
  | .call name operands _ => [.call name (some (operands.getD [])) none]

/-- Such a list that may be missing. -/
def plainBlock : Option (List Instr) → List Instr
  | none => []
  | some instrs => plainAll instrs

/-- Such a list. -/
def plainAll : List Instr → List Instr
  | [] => []
  | i :: rest => plain i ++ plainAll rest

end

mutual

/-- An instruction that a source can have: names are names, a call has at most one argument, and a function has no
parameters and returns nothing. -/
def Readable : Instr → Prop
  | .missing => False
  | .literal value _ => value.Readable
  | .importing _ _ _ => True
  | .function name parameters body type _ =>
    IsName name ∧ parameters = none ∧ type = .void ∧ ReadableBlock body
  | .call name operands _ =>
    IsName name ∧ ∃ argument : Option Literal, operands.getD [] = argument.toList ∧ ∀ v ∈ argument, v.Readable

/-- A list of such instructions that may be missing. -/
def ReadableBlock : Option (List Instr) → Prop
  | none => True
  | some instrs => AllReadable instrs

/-- A list of such instructions. -/
def AllReadable : List Instr → Prop
  | [] => True
  | i :: rest => Readable i ∧ AllReadable rest

end

/-! ## The items of a program -/

/-- The items at the end of a function. -/
def endItems (name : Bytes) (body : Option (List Instr)) : List C.Item :=
  if fallsThrough name body then [.call (ascii "return") (some zero), .closing] else [.closing]

mutual

/-- The items of the C text of an instruction. -/
def items : Instr → List C.Item
  | .missing => []
  | .literal value _ => [.literal value]
  | .importing _ _ _ => []
  | .function name _ body _ _ => .opening name :: (blockItems body ++ endItems name body)
  | .call name operands _ => [.call name (operands.getD []).head?]

/-- The items of a list that may be missing. -/
def blockItems : Option (List Instr) → List C.Item
  | none => []
  | some instrs => allItems instrs

/-- The items of a list. -/
def allItems : List Instr → List C.Item
  | [] => []
  | i :: rest => items i ++ allItems rest

end

theorem endToC_eq_texts (name : Bytes) (body : Option (List Instr)) :
    endToC name body = C.Item.texts (endItems name body) := by
  unfold endToC endItems
  show (if fallsThrough name body then ascii "return 0;" else []) ++ [Bytes.closeBrace] = _
  split <;> decide

mutual

/-- The text of an instruction is that of its items. -/
theorem toC_eq_texts (i : Instr) (h : i.Readable) (tail : Bytes) : i.toC tail = C.Item.texts i.items ++ tail :=
  match i, h with
  | .literal value _, _ => by simp [toC, items, C.Item.texts, C.Item.text]
  | .importing _ _ _, _ => rfl
  | .function name _ body _ _, ⟨_, rfl, _, hb⟩ => by
    rw [toC, blockToC_eq_texts body hb, endToC_eq_texts]
    simp [items, C.Item.texts, C.Item.text]
  | .call name operands _, ⟨_, argument, ho, _⟩ => by
    simp [toC, items, ho, C.Item.texts, C.Item.text]

/-- The text of a block is that of its items. -/
theorem blockToC_eq_texts (block : Option (List Instr)) (h : ReadableBlock block) (tail : Bytes) :
    blockToC block tail = C.Item.texts (blockItems block) ++ tail :=
  match block, h with
  | none, _ => rfl
  | some instrs, h => allToC_eq_texts instrs h tail

/-- The text of a list is that of its items. -/
theorem allToC_eq_texts (instrs : List Instr) (h : AllReadable instrs) (tail : Bytes) :
    allToC instrs tail = C.Item.texts (allItems instrs) ++ tail :=
  match instrs, h with
  | [], _ => rfl
  | i :: rest, ⟨hi, hr⟩ => by
    rw [allToC, toC_eq_texts i hi, allToC_eq_texts rest hr]
    simp [allItems, C.Item.texts]

end

theorem readable_endItems (name : Bytes) (body : Option (List Instr)) : ∀ i ∈ endItems name body, i.Readable := by
  have hr : IsName (ascii "return") := ⟨_, _, rfl, by decide, List.all_eq_true.1 (by decide)⟩
  have hz : zero.Readable := .inr ⟨rfl, by decide, List.all_eq_true.1 (by decide)⟩
  unfold endItems
  split
  · simp [C.Item.Readable, hr, hz]
  · simp [C.Item.Readable]

mutual

theorem readable_items (i : Instr) (h : i.Readable) : ∀ j ∈ i.items, j.Readable :=
  match i, h with
  | .literal value _, h => by
    intro j hj
    rw [items, List.mem_singleton] at hj
    rw [hj]
    exact h
  | .importing _ _ _, _ => by simp [items]
  | .function name _ body _ _, ⟨hn, _, _, hb⟩ => by
    intro j hj
    simp only [items, List.mem_cons, List.mem_append] at hj
    rcases hj with rfl | hj | hj
    · exact hn
    · exact readable_blockItems body hb j hj
    · exact readable_endItems name body j hj
  | .call name operands _, ⟨hn, argument, ho, ha⟩ => by
    intro j hj
    rw [items, ho, Option.head?_toList, List.mem_singleton] at hj
    rw [hj]
    exact ⟨hn, ha⟩

theorem readable_blockItems (block : Option (List Instr)) (h : ReadableBlock block) :
    ∀ j ∈ blockItems block, j.Readable :=
  match block, h with
  | none, _ => by simp [blockItems]
  | some instrs, h => readable_allItems instrs h

theorem readable_allItems (instrs : List Instr) (h : AllReadable instrs) : ∀ j ∈ allItems instrs, j.Readable :=
  match instrs, h with
  | [], _ => by simp [allItems]
  | i :: rest, ⟨hi, hr⟩ => by
    intro j hj
    rcases List.mem_append.1 hj with hj | hj
    · exact readable_items i hi j hj
    · exact readable_allItems rest hr j hj

end

end Instr

/-! ## Nesting -/

namespace C

/-- A function whose end has not been read: its name, and the instructions in front of it. -/
structure Frame where
  name : Bytes
  before : List Instr

/-- Puts items together, with the functions that are open, from the inside out, and the instructions of the innermost
so far. -/
def nest : List Item → (stack : List Frame) → (before : List Instr) → Option (List Instr)
  | [], [], before => some before
  | [], _ :: _, _ => none
  | .literal value :: rest, stack, before => nest rest stack (before ++ [.literal value none])
  | .call name argument :: rest, stack, before => nest rest stack (before ++ [.call name (some argument.toList) none])
  | .opening name :: rest, stack, before => nest rest (⟨name, before⟩ :: stack) []
  | .closing :: _, [], _ => none
  | .closing :: rest, outer :: stack, before =>
    nest rest stack (outer.before ++ [.function outer.name (some []) (some before) .void none])

/-- The program of a C text. -/
def program? (text : Bytes) : Option Program :=
  (items? ((after? Program.includeLine text).getD text)).bind fun items =>
    (nest items [] []).map fun instrs => ⟨[], some instrs⟩

end C

namespace Instr

/-- At the end of a function its frame is closed over its body and what is implied there. -/
theorem nest_endItems (name : Bytes) (body : Option (List Instr)) (rest : List C.Item) (stack : List C.Frame)
    (outer before : List Instr) :
    C.nest (endItems name body ++ rest) (⟨name, outer⟩ :: stack) before =
      C.nest rest stack (outer ++ [.function name (some []) (some (before ++ implied name body)) .void none]) := by
  unfold endItems implied
  split
  · rfl
  · simp [C.nest]

mutual

/-- The items of an instruction add the plain instruction to what was read before. -/
theorem nest_items (i : Instr) (h : i.Readable) (rest : List C.Item) (stack : List C.Frame) (before : List Instr) :
    C.nest (i.items ++ rest) stack before = C.nest rest stack (before ++ i.plain) :=
  match i, h with
  | .literal value _, _ => rfl
  | .importing _ _ _, _ => by simp [items, plain]
  | .function name _ body _ _, ⟨_, rfl, rfl, hb⟩ => by
    rw [items, List.cons_append, C.nest, List.append_assoc, nest_blockItems body hb, nest_endItems]
    rfl
  | .call name operands _, ⟨_, argument, ho, _⟩ => by
    simp [items, plain, ho, C.nest]

theorem nest_blockItems (block : Option (List Instr)) (h : ReadableBlock block) (rest : List C.Item)
    (stack : List C.Frame) (before : List Instr) :
    C.nest (blockItems block ++ rest) stack before = C.nest rest stack (before ++ plainBlock block) :=
  match block, h with
  | none, _ => by simp [blockItems, plainBlock]
  | some instrs, h => nest_allItems instrs h rest stack before

theorem nest_allItems (instrs : List Instr) (h : AllReadable instrs) (rest : List C.Item)
    (stack : List C.Frame) (before : List Instr) :
    C.nest (allItems instrs ++ rest) stack before = C.nest rest stack (before ++ plainAll instrs) :=
  match instrs, h with
  | [], _ => by simp [allItems, plainAll]
  | i :: others, ⟨hi, hr⟩ => by
    rw [allItems, List.append_assoc, nest_items i hi, nest_allItems others hr, plainAll, List.append_assoc]

end

end Instr

/-! ## Programs -/

/-- A program without what its C text does not show. -/
def Program.plain (p : Program) : Program :=
  ⟨[], some (Instr.plainBlock p.instructions)⟩

/-- No item starts with the sign that starts an include. -/
theorem C.items_include (rest : Bytes) : C.items? (Program.includeLine ++ rest) = none := by
  rw [C.items?]
  rfl

theorem C.after_include_texts {items : List C.Item} (h : ∀ i ∈ items, i.Readable) :
    C.after? Program.includeLine (C.Item.texts items) = none := by
  have hi := C.items_texts h
  cases ha : C.after? Program.includeLine (C.Item.texts items) with
  | none => rfl
  | some rest =>
    rw [C.after_eq_some_iff.1 ha, C.items_include] at hi
    cases hi

/-- A program is read back from its C text as the plain program. -/
theorem Program.program_toC {p : Program} {text : Bytes} (hr : Instr.ReadableBlock p.instructions)
    (ht : p.toC = .ok text) : C.program? text = some p.plain := by
  have hi := Instr.readable_blockItems p.instructions hr
  have hn : C.nest (Instr.blockItems p.instructions) [] [] = some (Instr.plainBlock p.instructions) := by
    have h := Instr.nest_blockItems p.instructions hr [] [] []
    rw [List.append_nil] at h
    exact h
  have he : text = p.header ++ C.Item.texts (Instr.blockItems p.instructions) := by
    unfold Program.toC at ht
    split at ht
    · cases ht
    · cases ht
      rw [Instr.blockToC_eq_texts p.instructions hr, List.append_nil]
  have hs : (C.after? Program.includeLine text).getD text = C.Item.texts (Instr.blockItems p.instructions) := by
    rw [he, Program.header]
    split
    · rw [C.after_append]
      rfl
    · rw [List.nil_append, C.after_include_texts hi]
      rfl
  rw [C.program?, hs, C.items_texts hi, Option.bind_some, hn]
  rfl

end CallLang
