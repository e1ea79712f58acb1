import CallLang.Program.Lowering
import CallLang.Proofs.C.Reading
import CallLang.Proofs.Tree.Grammar

/-!
# Statements in front of others

What the stages behind the scanner make of statements does not depend on the statements in front of them. The parser
reads a derived list of tokens and goes on behind it as at a start (`parse_append`), lowering goes statement by statement
(`Node.lowerAll_append`), and the C text of a list of instructions is that of its parts (`Program.bodyToC_append`). Two
things are said of a program as a whole: its first wrong call is that of the first part that has one
(`Instr.firstFault_append`), and it has the line of the include if one of its parts has (`Program.header_append`).

`C.included` and `C.withoutInclude` take the line of the include off a C text. The text of a program that does not call
for this line does not begin with it, so the two can be told apart (`Program.included_toC`,
`Program.withoutInclude_toC`). `Program.toC_append` and `Program.toC_append_error` put this together.
-/

namespace CallLang

/-! ## Parsing -/

/-- The list of a block, which is empty if the block is missing. -/
theorem Node.getD_ofList (nodes : List Node) : (Block.ofList nodes).getD [] = nodes := by
  cases nodes <;> rfl

/-- The parser reads a derived program as its nodes and goes on behind it. -/
theorem Parser.program_allTokens_append (ds : List Derivation) (ending : Option Location) (rest : List Token) :
    program ending (Derivation.allTokens ds ++ rest) = (program ending rest).map (Derivation.nodes ds ++ ·) := by
  induction ds with
  | nil =>
    rw [Derivation.allTokens, List.nil_append]
    cases program ending rest <;> rfl
  | cons d ds ih =>
    rw [Derivation.allTokens, List.append_assoc, program_tokens, ih]
    cases program ending rest <;> rfl

theorem Parser.lastPlace_append (front : List Token) {tokens : List Token} (h : tokens ≠ []) :
    lastPlace (front ++ tokens) = lastPlace tokens := by
  rw [lastPlace, lastPlace, List.getLast?_append, List.getLast?_eq_some_getLast h]
  rfl

/-- An early end of the tokens is put down to the last of them, so tokens in front do not matter if there are some. -/
theorem Parser.run_append (ds : List Derivation) (rest : List Token) :
    run (Derivation.allTokens ds ++ rest) = (run rest).map (Derivation.nodes ds ++ ·) := by
  rw [run, program_allTokens_append, run]
  cases rest with
  | nil =>
    rw [program, program]
  | cons t rest =>
    rw [lastPlace_append _ (List.cons_ne_nil t rest)]

/-- What follows a derived program is parsed as if it stood alone. -/
theorem parse_append (file : Bytes) (ds : List Derivation) (rest : List Token) :
    parse file (Derivation.allTokens ds ++ rest) = (parse file rest).map fun tree =>
      ⟨file, Node.Block.ofList (Derivation.nodes ds ++ tree.statements.getD [])⟩ := by
  rw [parse, Parser.run_append, parse]
  cases Parser.run rest with
  | done nodes left =>
    simp only [Outcome.map, Outcome.tree, Except.map, Node.getD_ofList]
  | failed e left => rfl

/-! ## Lowering -/

/-- The instructions of a program. -/
def Program.instrs (p : Program) : List Instr :=
  p.instructions.getD []

theorem Node.lowerAll_append (nodes others : List Node) : lowerAll (nodes ++ others) = lowerAll nodes ++ lowerAll others := by
  induction nodes with
  | nil => rfl
  | cons n nodes ih => rw [List.cons_append, lowerAll, lowerAll, ih, List.append_assoc]

theorem Tree.instrs_lower (t : Tree) : t.lower.instrs = Node.lowerAll (t.statements.getD []) := by
  obtain ⟨file, statements⟩ := t
  cases statements <;> rfl

/-! ## C text -/

namespace Instr

theorem callsBlock_eq (p : Bytes → Bool) (block : Option (List Instr)) : callsBlock p block = callsAny p (block.getD []) := by
  cases block <;> rfl

theorem blockFault_eq (block : Option (List Instr)) : blockFault? block = firstFault? (block.getD []) := by
  cases block <;> rfl

theorem blockToC_eq (block : Option (List Instr)) (tail : Bytes) : blockToC block tail = allToC (block.getD []) tail := by
  cases block <;> rfl

variable (instrs others : List Instr)

theorem callsAny_append (p : Bytes → Bool) : callsAny p (instrs ++ others) = (callsAny p instrs || callsAny p others) := by
  induction instrs with
  | nil => rfl
  | cons i instrs ih => rw [List.cons_append, callsAny, callsAny, ih, Bool.or_assoc]

theorem firstFault_append : firstFault? (instrs ++ others) = (firstFault? instrs).or (firstFault? others) := by
  induction instrs with
  | nil => rfl
  | cons i instrs ih =>
    rw [List.cons_append, firstFault?, firstFault?, ih]
    cases i.fault? <;> rfl

theorem allToC_list_append (tail : Bytes) : allToC (instrs ++ others) tail = allToC instrs (allToC others tail) := by
  induction instrs with
  | nil => rfl
  | cons i instrs ih => rw [List.cons_append, allToC, allToC, ih]

end Instr

namespace Program

/-- The C text of a program behind the line of the include. -/
def bodyToC (p : Program) : Bytes :=
  Instr.allToC p.instrs []

theorem toC_eq_ok_iff {p : Program} {text : Bytes} :
    p.toC = .ok text ↔ Instr.firstFault? p.instrs = none ∧ text = p.header ++ p.bodyToC := by
  rw [toC, bodyToC, Instr.blockFault_eq, Instr.blockToC_eq]
  unfold instrs
  cases Instr.firstFault? (p.instructions.getD []) with
  | some e => simp
  | none => simp [eq_comm]

theorem toC_eq_error_iff {p : Program} {e : RangeError} : p.toC = .error e ↔ Instr.firstFault? p.instrs = some e := by
  rw [toC, Instr.blockFault_eq]
  unfold instrs
  cases Instr.firstFault? (p.instructions.getD []) with
  | some e => simp
  | none => simp

/-- The line of the include stands before a text if it stands before one of its parts. -/
theorem header_append {p q r : Program} (h : r.instrs = p.instrs ++ q.instrs) :
    r.header = if Instr.callsBlock Instr.isExit p.instructions || Instr.callsBlock Instr.isExit q.instructions
      then includeLine else [] := by
  unfold instrs at h
  rw [header, Instr.callsBlock_eq, Instr.callsBlock_eq, Instr.callsBlock_eq, h, Instr.callsAny_append]

theorem bodyToC_append {p q r : Program} (h : r.instrs = p.instrs ++ q.instrs) :
    r.bodyToC = p.bodyToC ++ q.bodyToC := by
  rw [bodyToC, h, Instr.allToC_list_append, bodyToC, bodyToC, ← Instr.allToC_append, List.nil_append]

end Program

/-! ## The line of the include -/

namespace C

/-- Whether a text begins with the line of the include. -/
def included (text : Bytes) : Bool :=
  (after? Program.includeLine text).isSome

/-- A text without the line of the include. -/
def withoutInclude (text : Bytes) : Bytes :=
  (after? Program.includeLine text).getD text

theorem include_withoutInclude (text : Bytes) :
    (if included text then Program.includeLine else []) ++ withoutInclude text = text := by
  unfold included withoutInclude
  cases h : after? Program.includeLine text with
  | none => rfl
  | some rest => exact (after_eq_some_iff.1 h).symm

end C

namespace Program

variable {p : Program} {text : Bytes}

/-- The C text of a program behind the line of the include is that of its items. -/
theorem bodyToC_eq_texts (hr : Instr.ReadableBlock p.instructions) :
    p.bodyToC = C.Item.texts (Instr.blockItems p.instructions) := by
  have h := Instr.blockToC_eq_texts p.instructions hr []
  rwa [Instr.blockToC_eq, List.append_nil] at h

/-- The line of the include is found if the program has called for it. -/
theorem after_include_toC (hr : Instr.ReadableBlock p.instructions) (ht : p.toC = .ok text) :
    C.after? includeLine text =
      if Instr.callsBlock Instr.isExit p.instructions then some p.bodyToC else none := by
  obtain ⟨_, rfl⟩ := toC_eq_ok_iff.1 ht
  rw [header]
  split
  · exact C.after_append includeLine p.bodyToC
  · rw [List.nil_append, bodyToC_eq_texts hr]
    exact C.after_include_texts (Instr.readable_blockItems p.instructions hr)

theorem included_toC (hr : Instr.ReadableBlock p.instructions) (ht : p.toC = .ok text) :
    C.included text = Instr.callsBlock Instr.isExit p.instructions := by
  rw [C.included, after_include_toC hr ht]
  cases Instr.callsBlock Instr.isExit p.instructions <;> rfl

theorem withoutInclude_toC (hr : Instr.ReadableBlock p.instructions) (ht : p.toC = .ok text) :
    C.withoutInclude text = p.bodyToC := by
  have ha := after_include_toC hr ht
  obtain ⟨_, rfl⟩ := toC_eq_ok_iff.1 ht
  rw [C.withoutInclude, ha, header]
  cases Instr.callsBlock Instr.isExit p.instructions <;> rfl

section Joined

variable {q r : Program} {text' : Bytes} (h : r.instrs = p.instrs ++ q.instrs) (hp : p.toC = .ok text)

include h hp

/-- The C text of a program is that of its parts, behind the line of the include if one of them has it. -/
theorem toC_append (hrp : Instr.ReadableBlock p.instructions) (hrq : Instr.ReadableBlock q.instructions)
    (hq : q.toC = .ok text') :
    r.toC = .ok ((if C.included text || C.included text' then includeLine else []) ++
      (C.withoutInclude text ++ C.withoutInclude text')) := by
  rw [included_toC hrp hp, included_toC hrq hq, withoutInclude_toC hrp hp, withoutInclude_toC hrq hq]
  have hfault : Instr.firstFault? r.instrs = none := by
    rw [h, Instr.firstFault_append, (toC_eq_ok_iff.1 hp).1, (toC_eq_ok_iff.1 hq).1]
    rfl
  exact toC_eq_ok_iff.2 ⟨hfault, by rw [header_append h, bodyToC_append h]⟩

/-- What is wrong behind a program in which nothing is wrong is wrong with the whole. -/
theorem toC_append_error {e : RangeError} (hq : q.toC = .error e) : r.toC = .error e := by
  apply toC_eq_error_iff.2
  rw [h, Instr.firstFault_append, (toC_eq_ok_iff.1 hp).1, toC_eq_error_iff.1 hq]
  rfl

end Joined

end Program

end CallLang
