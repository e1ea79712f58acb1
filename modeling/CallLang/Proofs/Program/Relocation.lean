import CallLang.C.Emission
import CallLang.Program.Lowering
import CallLang.Proofs.Tree.Relocation

/-!
# Programs with other places

Lowering takes over the places of a tree, and the C text of a program does not depend on them. They show in a range
error only, which has the place of the call that it is about.

- `Tree.lower_relocate`: the program of a tree with moved places is the program with moved places;
- `Program.toC_relocate`: it has the same C text, or the same error at the moved place;
- `place_of_range_error`: the place of the error is the place of a token.
-/

namespace CallLang

variable (φ : Option Location → Option Location)

/-! ## Moving places -/

/-- The error at another place. -/
def RangeError.relocate (e : RangeError) : RangeError :=
  { e with place := φ e.place }

namespace Instr

mutual

/-- The instruction with all its places moved. -/
def relocate : Instr → Instr
  | .missing => .missing
  | .literal value place => .literal value (φ place)
  | .importing module name place => .importing module name (φ place)
  | .function name parameters body type place =>
    .function name (relocateBlock parameters) (relocateBlock body) type (φ place)
  | .call name operands place => .call name operands (φ place)

/-- A list of instructions that may be missing, with all places moved. -/
def relocateBlock : Option (List Instr) → Option (List Instr)
  | none => none
  | some instrs => some (relocateAll instrs)

/-- A list of instructions with all places moved. -/
def relocateAll : List Instr → List Instr
  | [] => []
  | i :: rest => relocate i :: relocateAll rest

end

end Instr

/-- The program with all its places moved. -/
def Program.relocate (p : Program) : Program :=
  ⟨p.file, Instr.relocateBlock φ p.instructions⟩

/-! ## Lowering -/

namespace Node

@[simp] theorem operand_relocate (n : Node) : (n.relocate φ).operand = n.operand := by
  cases n <;> rfl

/-- The operands of a call have no places. -/
theorem map_operand_relocateAll (nodes : List Node) : (relocateAll φ nodes).map operand = nodes.map operand := by
  induction nodes with
  | nil => rfl
  | cons n rest ih => rw [relocateAll, List.map_cons, List.map_cons, operand_relocate, ih]

mutual

theorem lower_relocate (n : Node) : (n.relocate φ).lower? = n.lower?.map (Instr.relocate φ) :=
  match n with
  | .missing => rfl
  | .literal _ _ => rfl
  | .importing _ _ _ => rfl
  | .function _ parameters body _ _ => by
    simp only [relocate, lower?, lowerBlock_relocate parameters, lowerBlock_relocate body, Option.map_some,
      Instr.relocate]
  | .call _ none _ => rfl
  | .call _ (some nodes) _ => by
    simp only [relocate, relocateBlock, lower?, Option.map_some, map_operand_relocateAll, Instr.relocate]

theorem lowerBlock_relocate (block : Option (List Node)) :
    lowerBlock (relocateBlock φ block) = Instr.relocateBlock φ (lowerBlock block) :=
  match block with
  | none => rfl
  | some nodes => congrArg some (lowerAll_relocate nodes)

theorem lowerAll_relocate (nodes : List Node) :
    lowerAll (relocateAll φ nodes) = Instr.relocateAll φ (lowerAll nodes) :=
  match nodes with
  | [] => rfl
  | n :: rest => by
    rw [relocateAll, lowerAll, lowerAll, lower_relocate n, lowerAll_relocate rest]
    cases n.lower? <;> rfl

end

end Node

theorem Tree.lower_relocate (t : Tree) : (t.relocate φ).lower = t.lower.relocate φ :=
  congrArg (Program.mk t.file) (Node.lowerBlock_relocate φ t.statements)

/-! ## The C text -/

namespace Instr

mutual

theorem calls_relocate (p : Bytes → Bool) (i : Instr) : (i.relocate φ).calls p = i.calls p :=
  match i with
  | .missing => rfl
  | .literal _ _ => rfl
  | .importing _ _ _ => rfl
  | .function _ _ body _ _ => callsBlock_relocate p body
  | .call _ _ _ => rfl

theorem callsBlock_relocate (p : Bytes → Bool) (block : Option (List Instr)) :
    callsBlock p (relocateBlock φ block) = callsBlock p block :=
  match block with
  | none => rfl
  | some instrs => callsAny_relocate p instrs

theorem callsAny_relocate (p : Bytes → Bool) (instrs : List Instr) :
    callsAny p (relocateAll φ instrs) = callsAny p instrs :=
  match instrs with
  | [] => rfl
  | i :: rest => by rw [relocateAll, callsAny, callsAny, calls_relocate p i, callsAny_relocate p rest]

end

/-- The fault of a call is at the place of the call. -/
theorem callFault_relocate (name : Bytes) (operands : List Literal) (place : Option Location) :
    callFault? name operands (φ place) = (callFault? name operands place).map (RangeError.relocate φ) := by
  cases operands with
  | nil => rfl
  | cons code rest =>
    simp only [callFault?]
    split <;> rfl

mutual

theorem fault_relocate (i : Instr) : (i.relocate φ).fault? = i.fault?.map (RangeError.relocate φ) :=
  match i with
  | .missing => rfl
  | .literal _ _ => rfl
  | .importing _ _ _ => rfl
  | .function _ _ body _ _ => blockFault_relocate body
  | .call name operands place => callFault_relocate φ name (operands.getD []) place

theorem blockFault_relocate (block : Option (List Instr)) :
    blockFault? (relocateBlock φ block) = (blockFault? block).map (RangeError.relocate φ) :=
  match block with
  | none => rfl
  | some instrs => firstFault_relocate instrs

theorem firstFault_relocate (instrs : List Instr) :
    firstFault? (relocateAll φ instrs) = (firstFault? instrs).map (RangeError.relocate φ) :=
  match instrs with
  | [] => rfl
  | i :: rest => by
    rw [relocateAll, firstFault?, firstFault?, fault_relocate i, firstFault_relocate rest]
    cases i.fault? <;> rfl

end

theorem map_const_relocateAll (text : Bytes) (instrs : List Instr) :
    (relocateAll φ instrs).map (fun _ => text) = instrs.map fun _ => text := by
  induction instrs with
  | nil => rfl
  | cons i rest ih => rw [relocateAll, List.map_cons, List.map_cons, ih]

/-- Of the parameters only their number shows. -/
theorem parametersToC_relocate (parameters : Option (List Instr)) :
    parametersToC (relocateBlock φ parameters) = parametersToC parameters :=
  match parameters with
  | none => rfl
  | some [] => rfl
  | some (i :: rest) => congrArg (Bytes.joined (ascii ", ")) (map_const_relocateAll φ (ascii "void") (i :: rest))

mutual

theorem toC_relocate (i : Instr) (tail : Bytes) : (i.relocate φ).toC tail = i.toC tail :=
  match i with
  | .missing => rfl
  | .literal _ _ => rfl
  | .importing _ _ _ => rfl
  | .function name parameters body _ _ => by
    simp only [relocate, toC, headToC, endToC, parametersToC_relocate, callsBlock_relocate, blockToC_relocate body]
  | .call _ _ _ => rfl

theorem blockToC_relocate (block : Option (List Instr)) (tail : Bytes) :
    blockToC (relocateBlock φ block) tail = blockToC block tail :=
  match block with
  | none => rfl
  | some instrs => allToC_relocate instrs tail

theorem allToC_relocate (instrs : List Instr) (tail : Bytes) :
    allToC (relocateAll φ instrs) tail = allToC instrs tail :=
  match instrs with
  | [] => rfl
  | i :: rest => by rw [relocateAll, allToC, allToC, toC_relocate i, allToC_relocate rest]

end

end Instr

/-- The C text does not depend on places, and neither does an error but for its own. -/
theorem Program.toC_relocate (p : Program) : (p.relocate φ).toC = p.toC.mapError (RangeError.relocate φ) := by
  simp only [toC, header, relocate, Instr.blockFault_relocate, Instr.callsBlock_relocate, Instr.blockToC_relocate]
  cases Instr.blockFault? p.instructions <;> rfl

/-- The place of a range error is the place of a token. -/
theorem place_of_range_error {file : Bytes} {tokens : List Token} {tree : Tree} {e : RangeError}
    (h : parse file tokens = .ok tree) (he : tree.lower.toC = .error e) : e.place ∈ tokens.map Token.place := by
  obtain ⟨φ, hφ⟩ := exists_moving (tokens.map Token.place)
  have hsame := parse_relocate φ file tokens
  rw [map_relocate_eq_self fun l hl => (hφ l).2 hl, h] at hsame
  have htree : tree.relocate φ = tree := (Except.ok.inj hsame).symm
  have hfault := Program.toC_relocate φ tree.lower
  rw [← Tree.lower_relocate, htree, he] at hfault
  apply (hφ e.place).1
  exact (congrArg RangeError.place (Except.error.inj hfault)).symm

end CallLang
