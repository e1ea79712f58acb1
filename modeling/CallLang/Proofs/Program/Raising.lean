import CallLang.Program.Lowering
import CallLang.Proofs.Tree.Grammar

/-!
# Raising

Lowering forgets the places of the arguments of calls and nothing else. `Program.raise` makes a tree of a program, one
statement for each instruction, and it gives back the tree that was lowered.

This is so for a tree which has no missing nodes and no arguments but literals (`Tree.Whole`). Any other tree is lowered
as if it had been repaired before (`Tree.repaired`): the missing nodes are taken out of all lists of statements, and an
argument that is not a literal becomes the literal that is none, where it stands.

- `Node.raise_lower`: raising gives a whole node back without the places of arguments (`Node.bare`);
- `Node.lower_repaired`: a repaired node has the same instruction;
- `Node.whole_repaired`, `Node.repaired_eq`: it is whole, and one that was whole stays as it is;
- `Node.whole_of_shaped`: what the parser builds is whole.

All of these go by induction on the tree, with the lists of its functions as lists that may be missing.
-/

namespace CallLang

/-! ## From instructions to nodes -/

namespace Instr

mutual

/-- The statement that becomes the given instruction. The arguments of a call get no place. -/
def raise : Instr → Node
  | .missing => .missing
  | .literal value place => .literal value place
  | .importing module name place => .importing module name place
  | .function name parameters body type place => .function name (raiseBlock parameters) (raiseBlock body) type place
  | .call name operands place => .call name (operands.map (·.map fun value => .literal value none)) place

/-- The statements of a list of instructions that may be missing. -/
def raiseBlock : Option (List Instr) → Option (List Node)
  | none => none
  | some instrs => some (raiseAll instrs)

/-- The statements of a list of instructions. -/
def raiseAll : List Instr → List Node
  | [] => []
  | i :: rest => raise i :: raiseAll rest

end

/-- There is one statement for each instruction. -/
theorem raiseBlock_eq_map (block : Option (List Instr)) : raiseBlock block = block.map (·.map raise) := by
  cases block with
  | none => rfl
  | some instrs =>
    rw [raiseBlock, Option.map_some]
    congr 1
    induction instrs with
    | nil => rfl
    | cons i rest ih => rw [raiseAll, List.map_cons, ih]

end Instr

/-- The tree of a program. -/
def Program.raise (p : Program) : Tree :=
  ⟨p.file, p.instructions.map (·.map Instr.raise)⟩

namespace Node

/-! ## Whole trees -/

/-- The node is not there. -/
def isMissing : Node → Bool
  | .missing => true
  | _ => false

/-- The node is a literal. -/
def isLiteral : Node → Bool
  | .literal _ _ => true
  | _ => false

mutual

/-- No node is missing, and the arguments of calls are literals. -/
def Whole : Node → Prop
  | .missing => False
  | .literal _ _ => True
  | .importing _ _ _ => True
  | .function _ parameters body _ _ => WholeBlock parameters ∧ WholeBlock body
  | .call _ arguments _ => ∀ n ∈ arguments.getD [], n.isLiteral

/-- All nodes of a list that may be missing are whole. -/
def WholeBlock : Option (List Node) → Prop
  | none => True
  | some nodes => AllWhole nodes

/-- All nodes of a list are whole. -/
def AllWhole : List Node → Prop
  | [] => True
  | n :: rest => n.Whole ∧ AllWhole rest

end

/-- An argument without its place. -/
def bareArgument : Node → Node
  | .literal value _ => .literal value none
  | n => n

mutual

/-- The node without the places of the arguments of calls. -/
def bare : Node → Node
  | .function name parameters body type place => .function name (bareBlock parameters) (bareBlock body) type place
  | .call name arguments place => .call name (arguments.map (·.map bareArgument)) place
  | n => n

/-- The nodes of a list that may be missing, without the places of the arguments of calls. -/
def bareBlock : Option (List Node) → Option (List Node)
  | none => none
  | some nodes => some (bareAll nodes)

/-- The nodes of a list without the places of the arguments of calls. -/
def bareAll : List Node → List Node
  | [] => []
  | n :: rest => bare n :: bareAll rest

end

/-- The argument itself if it is a literal, and the literal that is none otherwise. -/
def repairedArgument : Node → Node
  | .literal value place => .literal value place
  | _ => .literal {} none

mutual

/-- The node without the missing ones in its lists of statements, and with literals only as arguments. -/
def repaired : Node → Node
  | .function name parameters body type place =>
    .function name (repairedBlock parameters) (repairedBlock body) type place
  | .call name arguments place => .call name (arguments.map (·.map repairedArgument)) place
  | n => n

/-- The nodes that are there in a list that may be missing, all repaired. -/
def repairedBlock : Option (List Node) → Option (List Node)
  | none => none
  | some nodes => some (repairedAll nodes)

/-- The nodes that are there in a list, all repaired. -/
def repairedAll : List Node → List Node
  | [] => []
  | n :: rest => if n.isMissing then repairedAll rest else repaired n :: repairedAll rest

end

/-- Repairing takes the missing nodes out and leaves the others in their order. -/
theorem repairedBlock_eq_map (block : Option (List Node)) :
    repairedBlock block = block.map fun nodes => (nodes.filter fun n => !n.isMissing).map repaired := by
  cases block with
  | none => rfl
  | some nodes =>
    rw [repairedBlock, Option.map_some]
    congr 1
    induction nodes with
    | nil => rfl
    | cons n rest ih =>
      rw [repairedAll, ih, List.filter_cons]
      cases n.isMissing <;> rfl

end Node

namespace Tree

/-- No node is missing, and the arguments of calls are literals. -/
def Whole (t : Tree) : Prop :=
  Node.WholeBlock t.statements

/-- The tree without the places of the arguments of calls. -/
def bare (t : Tree) : Tree :=
  ⟨t.file, Node.bareBlock t.statements⟩

/-- The tree without missing nodes, and with literals only as arguments. -/
def repaired (t : Tree) : Tree :=
  ⟨t.file, t.statements.map fun nodes => (nodes.filter fun n => !n.isMissing).map Node.repaired⟩

end Tree

/-! ## Arguments -/

namespace Node

/-- Raised operands are the arguments without their places. -/
theorem map_literal_operand {arguments : List Node} (h : ∀ n ∈ arguments, n.isLiteral) :
    (arguments.map operand).map (fun value => literal value none) = arguments.map bareArgument := by
  rw [List.map_map]
  apply List.map_congr_left
  intro n hn
  cases n with
  | literal => rfl
  | _ => cases h _ hn

theorem operand_repairedArgument (n : Node) : n.repairedArgument.operand = n.operand := by
  cases n <;> rfl

theorem isLiteral_repairedArgument (n : Node) : n.repairedArgument.isLiteral := by
  cases n <;> rfl

/-- Literals stay as arguments. -/
theorem map_repairedArgument {arguments : List Node} (h : ∀ n ∈ arguments, n.isLiteral) :
    arguments.map repairedArgument = arguments := by
  have hid : ∀ n ∈ arguments, n.repairedArgument = id n := by
    intro n hn
    cases n with
    | literal => rfl
    | _ => cases h _ hn
  rw [List.map_congr_left hid, List.map_id]

/-! ## Raising gives the tree back -/

mutual

theorem raise_lower (n : Node) (h : n.Whole) : n.lower?.map Instr.raise = some n.bare :=
  match n with
  | .missing => h.elim
  | .literal _ _ => rfl
  | .importing _ _ _ => rfl
  | .function _ parameters body _ _ => by
    rw [lower?, Option.map_some, Instr.raise, raise_lowerBlock parameters h.1, raise_lowerBlock body h.2, bare]
  | .call _ none _ => rfl
  | .call _ (some arguments) _ => by
    have ha : (arguments.map operand).map (fun value => literal value none) = arguments.map bareArgument :=
      map_literal_operand h
    simp only [lower?, Option.map_some, Instr.raise, bare, ha]

theorem raise_lowerBlock (block : Option (List Node)) (h : WholeBlock block) :
    Instr.raiseBlock (lowerBlock block) = bareBlock block :=
  match block with
  | none => rfl
  | some nodes => congrArg some (raise_lowerAll nodes h)

theorem raise_lowerAll (nodes : List Node) (h : AllWhole nodes) : Instr.raiseAll (lowerAll nodes) = bareAll nodes :=
  match nodes with
  | [] => rfl
  | n :: rest => by
    obtain ⟨i, hi, hraise⟩ := Option.map_eq_some_iff.1 (raise_lower n h.1)
    rw [lowerAll, hi, Option.toList_some, List.singleton_append, Instr.raiseAll, hraise, raise_lowerAll rest h.2,
      bareAll]

end

/-! ## Repairing changes no instruction -/

mutual

theorem lower_repaired (n : Node) : n.repaired.lower? = n.lower? :=
  match n with
  | .missing => rfl
  | .literal _ _ => rfl
  | .importing _ _ _ => rfl
  | .function _ parameters body _ _ => by
    rw [repaired, lower?, lower?, lowerBlock_repaired parameters, lowerBlock_repaired body]
  | .call _ none _ => rfl
  | .call _ (some arguments) _ => by
    simp only [repaired, lower?, Option.map_some, List.map_map, Function.comp_def, operand_repairedArgument]

theorem lowerBlock_repaired (block : Option (List Node)) : lowerBlock (repairedBlock block) = lowerBlock block :=
  match block with
  | none => rfl
  | some nodes => congrArg some (lowerAll_repaired nodes)

theorem lowerAll_repaired (nodes : List Node) : lowerAll (repairedAll nodes) = lowerAll nodes :=
  match nodes with
  | [] => rfl
  | n :: rest => by
    rw [repairedAll]
    split
    · next hn =>
      -- a missing node has no instruction
      cases n with
      | missing => exact lowerAll_repaired rest
      | _ => cases hn
    · rw [lowerAll, lowerAll, lower_repaired n, lowerAll_repaired rest]

end

mutual

theorem whole_repaired (n : Node) (h : n.isMissing = false) : n.repaired.Whole :=
  match n with
  | .missing => nomatch h
  | .literal _ _ => trivial
  | .importing _ _ _ => trivial
  | .function _ parameters body _ _ => ⟨whole_repairedBlock parameters, whole_repairedBlock body⟩
  | .call _ none _ => by simp [repaired, Whole]
  | .call _ (some arguments) _ => by
    intro n hn
    obtain ⟨a, _, rfl⟩ := List.mem_map.1 hn
    exact a.isLiteral_repairedArgument

theorem whole_repairedBlock (block : Option (List Node)) : WholeBlock (repairedBlock block) :=
  match block with
  | none => trivial
  | some nodes => whole_repairedAll nodes

theorem whole_repairedAll (nodes : List Node) : AllWhole (repairedAll nodes) :=
  match nodes with
  | [] => trivial
  | n :: rest => by
    rw [repairedAll]
    split
    · exact whole_repairedAll rest
    · next hn => exact ⟨whole_repaired n (Bool.eq_false_iff.2 hn), whole_repairedAll rest⟩

end

mutual

theorem repaired_eq (n : Node) (h : n.Whole) : n.repaired = n :=
  match n with
  | .missing => h.elim
  | .literal _ _ => rfl
  | .importing _ _ _ => rfl
  | .function _ parameters body _ _ => by rw [repaired, repairedBlock_eq parameters h.1, repairedBlock_eq body h.2]
  | .call _ none _ => rfl
  | .call _ (some arguments) _ => by
    have ha : arguments.map repairedArgument = arguments := map_repairedArgument h
    rw [repaired, Option.map_some, ha]

theorem repairedBlock_eq (block : Option (List Node)) (h : WholeBlock block) : repairedBlock block = block :=
  match block with
  | none => rfl
  | some nodes => congrArg some (repairedAll_eq nodes h)

theorem repairedAll_eq (nodes : List Node) (h : AllWhole nodes) : repairedAll nodes = nodes :=
  match nodes with
  | [] => rfl
  | n :: rest => by
    have hn : ¬ n.isMissing = true := by
      intro hm
      cases n with
      | missing => exact h.1
      | _ => cases hm
    rw [repairedAll, if_neg hn, repaired_eq n h.1, repairedAll_eq rest h.2]

end

/-! ## What the parser builds -/

mutual

theorem whole_of_shaped (n : Node) (h : n.Shaped) : n.Whole :=
  match n with
  | .missing => h.elim
  | .literal _ _ => trivial
  | .importing _ _ _ => trivial
  | .function _ parameters body _ _ => ⟨by rw [h.1]; trivial, whole_of_shapedBlock body h.2.2⟩
  | .call _ arguments _ => by
    rcases h with rfl | ⟨value, place, rfl, _⟩
    · simp [Whole]
    · simp [Whole, isLiteral]

theorem whole_of_shapedBlock (block : Option (List Node)) (h : ShapedBlock block) : WholeBlock block :=
  match block with
  | none => trivial
  | some nodes => whole_of_allShaped nodes h.2

theorem whole_of_allShaped (nodes : List Node) (h : AllShaped nodes) : AllWhole nodes :=
  match nodes with
  | [] => trivial
  | n :: rest => ⟨whole_of_shaped n h.1, whole_of_allShaped rest h.2⟩

end

end Node

/-! ## Trees -/

namespace Tree

variable (t : Tree)

theorem repaired_statements : t.repaired.statements = Node.repairedBlock t.statements :=
  (Node.repairedBlock_eq_map t.statements).symm

theorem raise_lower {t : Tree} (h : t.Whole) : t.lower.raise = t.bare := by
  rw [Program.raise, ← Instr.raiseBlock_eq_map]
  exact congrArg (Tree.mk t.file) (Node.raise_lowerBlock t.statements h)

theorem lower_repaired : t.repaired.lower = t.lower := by
  rw [lower, repaired_statements, Node.lowerBlock_repaired]
  rfl

theorem whole_repaired : t.repaired.Whole := by
  rw [Whole, repaired_statements]
  exact Node.whole_repairedBlock t.statements

theorem repaired_eq {t : Tree} (h : t.Whole) : t.repaired = t := by
  rw [repaired, ← Node.repairedBlock_eq_map, Node.repairedBlock_eq t.statements h]

end Tree

theorem whole_of_parse {file : Bytes} {tokens : List Token} {t : Tree} (h : parse file tokens = .ok t) : t.Whole := by
  obtain ⟨ds, _, rfl⟩ := exists_derivation_of_parse h
  exact Node.whole_of_shapedBlock _ (Node.shapedBlock_ofList (Derivation.allShaped_nodes ds))

/-- **Lowering loses nothing** but the places of the arguments of calls. A whole tree is given back by raising its
program, apart from these places; a tree that was parsed is whole. Any other tree has the program of the whole tree that
repairing makes of it, and raising gives back this one. Repairing leaves a whole tree as it is. -/
theorem lowering_loses_nothing (t : Tree) :
    (t.Whole → t.lower.raise = t.bare) ∧
    (∀ file tokens, parse file tokens = .ok t → t.Whole) ∧
    t.lower = t.repaired.lower ∧ t.repaired.Whole ∧ t.lower.raise = t.repaired.bare ∧
    (t.Whole → t.repaired = t) := by
  refine ⟨Tree.raise_lower, fun _ _ => whole_of_parse, t.lower_repaired.symm, t.whole_repaired, ?_, Tree.repaired_eq⟩
  rw [← t.lower_repaired]
  exact Tree.raise_lower t.whole_repaired

/-- A tree with missing nodes in all its lists and with arguments that are no literals, the whole tree that repairing
makes of it, and the tree of `f(1);`, which was parsed. -/
theorem lowering_loses_nothing_given :
    let place : Option Location := some ⟨[], 1, 3, 2⟩
    let one : Node := .literal ⟨.number, ascii "1"⟩ place
    let tree (front parameters arguments back : List Node) : Tree :=
      ⟨[], some (front ++ [.function (ascii "f") (some parameters)
        (some (.call (ascii "g") (some (one :: arguments)) place :: back)) .void place])⟩
    let given := tree [.missing] [.missing] [.missing, .importing [] [] place] [.missing, .missing]
    let whole := tree [] [] [.literal {} none, .literal {} none] []
    let word (kind : Kind) (value : String) : Token := ⟨kind, ascii value, place, 1⟩
    let tokens :=
      [word .identifier "f", word .openParen "(", word .number "1", word .closeParen ")", word .semicolon ";"]
    let parsed : Tree := ⟨[], some [.call (ascii "f") (some [one]) place]⟩
    given.lower = whole.lower ∧ given.lower.raise = whole.bare ∧ whole.Whole ∧ whole.lower.raise = whole.bare ∧
    whole.repaired = whole ∧ parse [] tokens = .ok parsed ∧ parsed.Whole ∧ parsed.lower.raise = parsed.bare := by
  intro place one tree given whole word tokens parsed
  let ds : List Derivation := [.call ⟨word .identifier "f", rfl⟩ ⟨word .openParen "(", rfl⟩
    (some (.number ⟨word .number "1", rfl⟩)) ⟨word .closeParen ")", rfl⟩ ⟨word .semicolon ";", rfl⟩]
  have hrepaired : given.repaired = whole := rfl
  obtain ⟨_, _, hlower, hwhole, hgiven, _⟩ := lowering_loses_nothing given
  rw [hrepaired] at hlower hwhole hgiven
  obtain ⟨hraise, _, _, _, _, hself⟩ := lowering_loses_nothing whole
  have hparse : parse [] tokens = .ok parsed := parse_allTokens [] ds
  obtain ⟨hraise', hparsed, _⟩ := lowering_loses_nothing parsed
  have hwhole' := hparsed [] tokens hparse
  exact ⟨hlower, hgiven, hwhole, hraise hwhole, hself hwhole, hparse, hwhole', hraise' hwhole'⟩

end CallLang
