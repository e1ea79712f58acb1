import CallLang.C.Emission
import CallLang.Program.Lowering
import CallLang.Proofs.Tree.Preorder

/-!
# The instructions of a program in order

`Program.preorder` goes through a program as `Tree.visits` goes through a tree. Lowering keeps the order: the
instructions that are met in a lowered tree are those of the statements that are met in the tree
(`Tree.preorder_lower`), each at the place of its statement (`Node.place_lower`) and with the literals in it
(`Derivation.values_tree`). The first wrong call of a program is the first one that is met
(`Instr.firstFault_preorder`).
-/

namespace CallLang

namespace Instr

/-- The place of an instruction. -/
def place : Instr → Option Location
  | .missing => none
  | .literal _ place => place
  | .importing _ _ place => place
  | .function _ _ _ _ place => place
  | .call _ _ place => place

mutual

/-- The instructions that are met in an instruction: itself, then those of its body. -/
def preorder : Instr → List Instr
  | .function name parameters body type place => .function name parameters body type place :: blockPreorder body
  | i => [i]

/-- The instructions that are met in a list that may be missing. -/
def blockPreorder : Option (List Instr) → List Instr
  | none => []
  | some instrs => allPreorder instrs

/-- The instructions that are met in a list. -/
def allPreorder : List Instr → List Instr
  | [] => []
  | i :: rest => preorder i ++ allPreorder rest

end

theorem allPreorder_append (instrs others : List Instr) :
    allPreorder (instrs ++ others) = allPreorder instrs ++ allPreorder others := by
  induction instrs with
  | nil => rfl
  | cons i instrs ih => rw [List.cons_append, allPreorder, allPreorder, ih, List.append_assoc]

end Instr

/-- The instructions that are met in a program. -/
def Program.preorder (p : Program) : List Instr :=
  Instr.blockPreorder p.instructions

/-! ## Lowering -/

/-- The instruction of a node that is met as a statement. -/
def Visit.lower? (v : Visit) : Option Instr :=
  match v.role with
  | .statement => v.node.lower?
  | .argument => none

namespace Node

/-- Lowering keeps the place of a statement. -/
theorem place_lower {n : Node} {i : Instr} (h : n.lower? = some i) : i.place = n.place := by
  cases n <;> cases h <;> rfl

mutual

/-- What is met in an argument is no statement. -/
theorem filterMap_argument (n : Node) : (n.visits .argument).filterMap Visit.lower? = [] :=
  match n with
  | .missing => rfl
  | .literal _ _ => rfl
  | .importing _ _ _ => rfl
  | .function _ _ body _ _ => filterMap_blockArgument body
  | .call _ arguments _ => filterMap_blockArgument arguments

theorem filterMap_blockArgument (block : Option (List Node)) :
    (blockVisits .argument block).filterMap Visit.lower? = [] :=
  match block with
  | none => rfl
  | some nodes => filterMap_allArgument nodes

theorem filterMap_allArgument (nodes : List Node) : (allVisits .argument nodes).filterMap Visit.lower? = [] :=
  match nodes with
  | [] => rfl
  | n :: rest => by
    rw [allVisits, List.filterMap_append, filterMap_argument n, filterMap_allArgument rest]
    rfl

end

mutual

/-- What is met in the instruction of a statement. -/
theorem preorder_lower (n : Node) :
    Instr.allPreorder n.lower?.toList = (n.visits .statement).filterMap Visit.lower? :=
  match n with
  | .missing => rfl
  | .literal _ _ => rfl
  | .importing _ _ _ => rfl
  | .function name parameters body type place => by
    have hbody := preorder_lowerBlock body
    simp only [lower?, Option.toList_some, Instr.allPreorder, Instr.preorder, hbody, List.append_nil]
    rfl
  | .call name arguments place => by
    rw [visits, List.filterMap_cons, filterMap_blockArgument arguments]
    rfl

theorem preorder_lowerBlock (block : Option (List Node)) :
    Instr.blockPreorder (lowerBlock block) = (blockVisits .statement block).filterMap Visit.lower? :=
  match block with
  | none => rfl
  | some nodes => preorder_lowerAll nodes

/-- What is met in the instructions of a list of statements. -/
theorem preorder_lowerAll (nodes : List Node) :
    Instr.allPreorder (lowerAll nodes) = (allVisits .statement nodes).filterMap Visit.lower? :=
  match nodes with
  | [] => rfl
  | n :: rest => by
    rw [lowerAll, Instr.allPreorder_append, preorder_lower n, preorder_lowerAll rest, allVisits, List.filterMap_append]

end

end Node

/-- **Lowering keeps the order of statements.** -/
theorem Tree.preorder_lower (t : Tree) : t.lower.preorder = t.visits.filterMap Visit.lower? :=
  Node.preorder_lowerBlock t.statements

/-! ## Literals -/

/-- The value of a literal. -/
def Node.literal? : Node → Option Literal
  | .literal value _ => some value
  | _ => none

theorem Node.eq_literal {n : Node} {value : Literal} (h : n.literal? = some value) :
    ∃ place, n = .literal value place := by
  cases n with
  | literal value' place =>
    cases h
    exact ⟨place, rfl⟩
  | _ => cases h

/-- The values of an instruction. -/
def Instr.values : Instr → List Literal
  | .literal value _ => [value]
  | .call _ operands _ => operands.getD []
  | _ => []

namespace Derivation

/-- The instruction of a statement has the values of the literals in it. -/
theorem values_lower (d : Derivation) :
    ((d.leads.map Prod.snd).filterMap Visit.lower?).flatMap Instr.values =
      (d.leads.map Prod.snd).filterMap (·.node.literal?) := by
  cases d with
  | importing start _ _ _ _ => rfl
  | function type _ _ _ _ _ _ _ => rfl
  | call name _ argument _ _ =>
    cases argument with
    | none => rfl
    | some v => cases v <;> rfl
  | literal v _ => cases v <;> rfl

/-- Lowering takes over the literals of a program. -/
theorem allValues_lower (ds : List Derivation) :
    ((((allStatements ds).flatMap leads).map Prod.snd).filterMap Visit.lower?).flatMap Instr.values =
      (((allStatements ds).flatMap leads).map Prod.snd).filterMap (·.node.literal?) := by
  induction allStatements ds with
  | nil => rfl
  | cons d rest ih =>
    rw [List.flatMap_cons, List.map_append, List.filterMap_append, List.flatMap_append, values_lower, ih,
      List.filterMap_append]

/-- The program of a tree has the literals of the tree. -/
theorem values_tree (file : Bytes) (ds : List Derivation) :
    (tree file ds).lower.preorder.flatMap Instr.values = (tree file ds).visits.filterMap (·.node.literal?) := by
  rw [Tree.preorder_lower, visits_tree, allVisits_nodes]
  exact allValues_lower ds

end Derivation

/-! ## Wrong calls -/

namespace Instr

/-- What is wrong with an instruction, apart from its body. -/
def ownFault? : Instr → Option RangeError
  | .call name operands place => callFault? name (operands.getD []) place
  | _ => none

mutual

theorem fault_eq (i : Instr) : i.fault? = i.preorder.findSome? ownFault? :=
  match i with
  | .missing => rfl
  | .literal _ _ => rfl
  | .importing _ _ _ => rfl
  | .function _ _ body _ _ => blockFault_preorder body
  | .call name operands place => (@List.findSome?_singleton _ _ ownFault? (.call name operands place)).symm

theorem blockFault_preorder (block : Option (List Instr)) :
    blockFault? block = (blockPreorder block).findSome? ownFault? :=
  match block with
  | none => rfl
  | some instrs => firstFault_preorder instrs

/-- The first wrong call is the first one that is met. -/
theorem firstFault_preorder (instrs : List Instr) : firstFault? instrs = (allPreorder instrs).findSome? ownFault? :=
  match instrs with
  | [] => rfl
  | i :: rest => by
    rw [firstFault?, fault_eq i, firstFault_preorder rest, allPreorder, List.findSome?_append]
    cases i.preorder.findSome? ownFault? <;> rfl

end

end Instr

end CallLang
