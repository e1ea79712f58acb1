import CallLang.Proofs.Program.Reaching

/-!
# The structure of C text

Three walks go through a program: one writes the text, one looks for calls of `exit` before, and one looks in every
`main` for calls that leave it. They agree on the calls that there are. To say what the first one writes, its text is
taken apart: `Instr.parts` is the row of parts that are written for an instruction, with the calls among them and with
the number of parameters of a function, but not the parameters.

- `Instr.toC_eq_parts`: the text of an instruction is that of its parts, in front of any text;
- `Instr.callsAny_parts`: a call is found before writing if one is written, which is if one is reached
  (`Instr.callsAny_iff`). So the text has the line of the include just then (`Program.header_eq_include_iff`);
- `Instr.text_function`: the end of a function, by the calls that are reached in its body.
-/

namespace CallLang

/-! ## Parts of a text -/

/-- What is written in one piece. -/
inductive C.Part where
  | literal (value : Literal)
  | call (name : Bytes) (operands : List Literal)
  /-- The head of a function with a number of parameters. -/
  | opening (name : Bytes) (parameters : Nat)
  /-- The `return` that `main` is given at its end. -/
  | leaving
  | closing

namespace C.Part

/-- The text of a part. -/
def text : Part → Bytes
  | .literal value => value.toC ++ ascii ";"
  | .call name operands => Instr.callToC name operands
  | .opening name parameters => Instr.headToC name (some (List.replicate parameters .missing))
  | .leaving => ascii "return 0;"
  | .closing => [Bytes.closeBrace]

/-- Whether a part is a call with a name that satisfies `p`. -/
def isCall (p : Bytes → Bool) : Part → Bool
  | .call name _ => p name
  | _ => false

end C.Part

namespace Instr

/-- The C text of an instruction alone. -/
def text (i : Instr) : Bytes :=
  i.toC []

/-- A call of `return` or `exit` is reached in the body of a function. -/
def Leaves (body : Option (List Instr)) : Prop :=
  ∃ name operands place, Within (body.getD []) (.call name operands place) ∧
    (name = ascii "return" ∨ name = ascii "exit")

/-- The parts at the end of a function. -/
def endParts (name : Bytes) (body : Option (List Instr)) : List C.Part :=
  (if isMain name && !callsBlock isLeaving body then [.leaving] else []) ++ [.closing]

mutual

/-- The parts that are written for an instruction. -/
def parts : Instr → List C.Part
  | .missing => []
  | .literal value _ => [.literal value]
  | .importing _ _ _ => []
  | .call name operands _ => [.call name (operands.getD [])]
  | .function name parameters body _ _ =>
    .opening name (parameters.getD []).length :: (blockParts body ++ endParts name body)

/-- The parts that are written for a list of instructions that may be missing. -/
def blockParts : Option (List Instr) → List C.Part
  | none => []
  | some instrs => allParts instrs

/-- The parts that are written for a list of instructions. -/
def allParts : List Instr → List C.Part
  | [] => []
  | i :: rest => parts i ++ allParts rest

end

/-- Only the number of parameters shows. -/
theorem headToC_eq (name : Bytes) (parameters : Option (List Instr)) :
    headToC name parameters = C.Part.text (.opening name (parameters.getD []).length) := by
  have h : parametersToC parameters = parametersToC (some (List.replicate (parameters.getD []).length .missing)) := by
    unfold parametersToC
    cases parameters.getD [] with
    | nil => rfl
    | cons i rest => simp [List.replicate_succ, List.map_const']
  rw [C.Part.text, headToC, headToC, h]

theorem endToC_eq_endParts (name : Bytes) (body : Option (List Instr)) :
    endToC name body = (endParts name body).flatMap C.Part.text := by
  rw [endToC, endParts, List.flatMap_append, List.flatMap_singleton]
  split
  · rw [List.flatMap_singleton]
    rfl
  · rfl

mutual

/-- The text of an instruction is that of its parts. -/
theorem toC_eq_parts (i : Instr) (tail : Bytes) : i.toC tail = i.parts.flatMap C.Part.text ++ tail :=
  match i with
  | .missing => rfl
  | .importing _ _ _ => rfl
  | .literal value _ => by simp [toC, parts, C.Part.text]
  | .call name operands _ => by simp [toC, parts, C.Part.text]
  | .function name parameters body _ _ => by
    rw [toC, parts, blockToC_eq_parts body, headToC_eq, endToC_eq_endParts, List.flatMap_cons, List.flatMap_append,
      List.append_assoc, List.append_assoc]

theorem blockToC_eq_parts (block : Option (List Instr)) (tail : Bytes) :
    blockToC block tail = (blockParts block).flatMap C.Part.text ++ tail :=
  match block with
  | none => rfl
  | some instrs => allToC_eq_parts instrs tail

theorem allToC_eq_parts (instrs : List Instr) (tail : Bytes) :
    allToC instrs tail = (allParts instrs).flatMap C.Part.text ++ tail :=
  match instrs with
  | [] => rfl
  | i :: rest => by
    rw [allToC, allParts, toC_eq_parts i, allToC_eq_parts rest, List.flatMap_append, List.append_assoc]

end

theorem text_eq_parts (i : Instr) : i.text = i.parts.flatMap C.Part.text := by
  rw [text, toC_eq_parts, List.append_nil]

theorem allParts_eq_flatMap (instrs : List Instr) : allParts instrs = instrs.flatMap parts := by
  induction instrs with
  | nil => rfl
  | cons i instrs ih => rw [allParts, List.flatMap_cons, ih]

/-- The text of a list of instructions is that of each, one after the other. -/
theorem allToC_eq_flatMap (instrs : List Instr) : allToC instrs [] = instrs.flatMap text := by
  rw [allToC_eq_parts, List.append_nil, allParts_eq_flatMap, List.flatMap_assoc]
  simp only [← text_eq_parts]

/-! ## Calls -/

section Calls

variable {p : Bytes → Bool}

theorem any_endParts (name : Bytes) (body : Option (List Instr)) : (endParts name body).any (C.Part.isCall p) = false := by
  rw [endParts, List.any_append]
  split <;> rfl

mutual

theorem calls_parts (i : Instr) : i.calls p = i.parts.any (C.Part.isCall p) :=
  match i with
  | .missing => rfl
  | .literal _ _ => rfl
  | .importing _ _ _ => rfl
  | .call name _ _ => (Bool.or_false (p name)).symm
  | .function name _ body _ _ => by
    rw [calls, parts, List.any_cons, List.any_append, any_endParts, Bool.or_false, callsBlock_parts body]
    rfl

theorem callsBlock_parts (block : Option (List Instr)) : callsBlock p block = (blockParts block).any (C.Part.isCall p) :=
  match block with
  | none => rfl
  | some instrs => callsAny_parts instrs

/-- A call is found before writing if one is written. -/
theorem callsAny_parts (instrs : List Instr) : callsAny p instrs = (allParts instrs).any (C.Part.isCall p) :=
  match instrs with
  | [] => rfl
  | i :: rest => by
    rw [callsAny, allParts, List.any_append, calls_parts i, callsAny_parts rest]

end

end Calls

theorem callsAny_exit_iff {instrs : List Instr} :
    callsAny isExit instrs = true ↔ ∃ operands place, Within instrs (.call (ascii "exit") operands place) := by
  rw [callsAny_iff]
  simp only [isExit, beq_iff_eq]
  constructor
  · rintro ⟨_, operands, place, hw, rfl⟩
    exact ⟨operands, place, hw⟩
  · rintro ⟨operands, place, hw⟩
    exact ⟨_, operands, place, hw, rfl⟩

theorem callsAny_exit_iff_parts {instrs : List Instr} :
    callsAny isExit instrs = true ↔ ∃ operands, .call (ascii "exit") operands ∈ instrs.flatMap parts := by
  rw [callsAny_parts, allParts_eq_flatMap, List.any_eq_true]
  constructor
  · rintro ⟨part, hmem, hcall⟩
    cases part with
    | call name operands =>
      obtain rfl : name = ascii "exit" := beq_iff_eq.1 hcall
      exact ⟨operands, hmem⟩
    | _ => cases hcall
  · rintro ⟨operands, hmem⟩
    exact ⟨_, hmem, beq_self_eq_true _⟩

theorem callsBlock_leaving_iff {body : Option (List Instr)} : callsBlock isLeaving body = true ↔ Leaves body := by
  rw [callsBlock_eq, callsAny_iff]
  simp only [isLeaving, Bool.or_eq_true, beq_iff_eq, Leaves]

/-- The text of a function. A `return` is added at the end of a `main` in which no call is reached that leaves it. -/
theorem text_function (name : Bytes) (parameters body : Option (List Instr)) (type : ReturnType)
    (place : Option Location) :
    ∃ extra, text (.function name parameters body type place) =
        headToC name parameters ++ ((body.getD []).flatMap text ++ (extra ++ [Bytes.closeBrace])) ∧
      (extra = ascii "return 0;" ∧ name = ascii "main" ∧ ¬ Leaves body ∨
        extra = [] ∧ (name = ascii "main" → Leaves body)) := by
  refine ⟨if isMain name && !callsBlock isLeaving body then ascii "return 0;" else [], ?_, ?_⟩
  · rw [text, toC, List.append_nil, ← allToC_eq_flatMap, ← blockToC_eq, ← blockToC_append, List.nil_append, endToC]
  · split
    · next h =>
      rw [Bool.and_eq_true, isMain, beq_iff_eq, Bool.not_eq_true', ← Bool.not_eq_true, callsBlock_leaving_iff] at h
      exact .inl ⟨rfl, h⟩
    · next h =>
      refine .inr ⟨rfl, ?_⟩
      rintro rfl
      rw [← callsBlock_leaving_iff]
      simpa [isMain] using h

end Instr

/-! ## Programs -/

namespace Program

theorem includeLine_ne_nil : includeLine ≠ [] :=
  List.cons_ne_nil _ _

theorem header_eq_include_iff {p : Program} : p.header = includeLine ↔ Instr.callsAny Instr.isExit p.instrs = true := by
  rw [header, Instr.callsBlock_eq, instrs]
  split
  · next h => exact iff_of_true rfl h
  · next h => exact iff_of_false includeLine_ne_nil.symm h

theorem header_eq_nil_iff {p : Program} : p.header = [] ↔ p.header ≠ includeLine := by
  rw [header]
  split
  · exact iff_of_false includeLine_ne_nil (not_not_intro rfl)
  · exact iff_of_true rfl includeLine_ne_nil.symm

end Program

/-- **The structure of C text.** The text of a program is the line of the include, or nothing, and then the text of each
instruction, which is that of its parts; so texts of programs are put behind each other by putting their instructions
behind each other. The line is there just if a call of `exit` is among the parts that are written, which is if one is
reached through the bodies of functions; of parameters only the number counts. A function that is reached is its head,
its body, and its end; there a `return 0;` is added in a `main` in which no call of `return` or `exit` is reached, and
nowhere else. -/
theorem toC_structure (p : Program) (text : Bytes) (h : p.toC = .ok text) :
    text = p.header ++ p.instrs.flatMap Instr.text ∧
    (∀ i, Instr.text i = (Instr.parts i).flatMap C.Part.text) ∧
    (∀ (q r : Program) text', q.toC = .ok text' → r.instrs = p.instrs ++ q.instrs → ∃ joined, r.toC = .ok joined ∧
      joined.drop r.header.length = text.drop p.header.length ++ text'.drop q.header.length) ∧
    (p.header = Program.includeLine ↔ ∃ operands, .call (ascii "exit") operands ∈ p.instrs.flatMap Instr.parts) ∧
    (p.header = Program.includeLine ↔ ∃ operands place, Instr.Within p.instrs (.call (ascii "exit") operands place)) ∧
    (p.header = [] ↔ p.header ≠ Program.includeLine) ∧
    (∀ name parameters parameters' body type place, (parameters.getD []).length = (parameters'.getD []).length →
      Instr.parts (.function name parameters body type place) =
        Instr.parts (.function name parameters' body type place)) ∧
    ∀ name parameters body type place, Instr.Within p.instrs (.function name parameters body type place) →
      ∃ extra, Instr.text (.function name parameters body type place) =
          Instr.headToC name parameters ++ ((body.getD []).flatMap Instr.text ++ (extra ++ [Bytes.closeBrace])) ∧
        (extra = ascii "return 0;" ∧ name = ascii "main" ∧ ¬ Instr.Leaves body ∨
          extra = [] ∧ (name = ascii "main" → Instr.Leaves body)) := by
  obtain ⟨hfault, htext⟩ := Program.toC_eq_ok_iff.1 h
  refine ⟨?_, Instr.text_eq_parts, ?_, ?_, ?_, Program.header_eq_nil_iff, ?_, ?_⟩
  · rw [htext, Program.bodyToC, Instr.allToC_eq_flatMap]
  · intro q r text' hq hr
    obtain ⟨hfault', htext'⟩ := Program.toC_eq_ok_iff.1 hq
    refine ⟨r.header ++ r.bodyToC, Program.toC_eq_ok_iff.2 ⟨?_, rfl⟩, ?_⟩
    · rw [hr, Instr.firstFault_append, hfault, hfault']
      rfl
    · rw [htext, htext', List.drop_left, List.drop_left, List.drop_left, Program.bodyToC_append hr]
  · rw [Program.header_eq_include_iff, Instr.callsAny_exit_iff_parts]
  · rw [Program.header_eq_include_iff, Instr.callsAny_exit_iff]
  · intro name parameters parameters' body type place hlength
    rw [Instr.parts, Instr.parts, hlength]
  · intro name parameters body type place _
    exact Instr.text_function name parameters body type place

/-- A `main` in a `main`, with a call of `exit` as a parameter only: both get a `return`, and there is no line of the
include. In front of a call of `exit` there is one. -/
theorem toC_structure_main :
    let exit : Instr := .call (ascii "exit") (some [⟨.number, ascii "3"⟩]) none
    let inner : Instr := .function (ascii "main") none none .void none
    let p : Program := ⟨[], some [.function (ascii "main") (some [exit]) (some [inner]) .void none]⟩
    let q : Program := ⟨[], some [.missing, exit]⟩
    let text := ascii "int main(void) " ++
      Bytes.braced (ascii "int main(void) " ++ Bytes.braced (ascii "return 0;") ++ ascii "return 0;")
    p.toC = .ok text ∧ p.header = [] ∧
    (¬ ∃ operands place, Instr.Within p.instrs (.call (ascii "exit") operands place)) ∧
    (∃ joined, (p.append q.instrs).toC = .ok joined ∧ joined.drop Program.includeLine.length = text ++ ascii "exit(3);") ∧
    (∃ operands, .call (ascii "exit") operands ∈ q.instrs.flatMap Instr.parts) ∧
    (∃ extra, inner.text = ascii "int main(void) " ++ Bytes.braced extra ∧ extra = ascii "return 0;") := by
  intro exit inner p q text
  have hp : p.toC = .ok text := by decide +kernel
  have hq : q.toC = .ok (Program.includeLine ++ ascii "exit(3);") := by decide +kernel
  have hheader : p.header = [] := by decide +kernel
  obtain ⟨_, _, hjoin, _, hreach, hnil, _, hfunction⟩ := toC_structure p text hp
  obtain ⟨_, _, _, hparts, _⟩ := toC_structure q _ hq
  refine ⟨hp, hheader, fun h => hnil.1 hheader (hreach.2 h), ?_, hparts.1 (by decide +kernel), ?_⟩
  · obtain ⟨joined, hjoined, hbody⟩ := hjoin q (p.append q.instrs) _ hq rfl
    exact ⟨joined, hjoined, hbody⟩
  · obtain ⟨extra, htext, hextra⟩ := hfunction _ none none .void none (.inside (.here List.mem_cons_self) List.mem_cons_self)
    refine ⟨extra, htext, ?_⟩
    rcases hextra with ⟨h, _⟩ | ⟨_, hleaves⟩
    · exact h
    · obtain ⟨_, _, _, hw, _⟩ := hleaves rfl
      cases Instr.mem_allPreorder_iff.2 hw

end CallLang
