import CallLang.Proofs.Program.Preorder
import CallLang.Proofs.Program.Relocation
import CallLang.Proofs.Tree.Listing

/-!
# Listings of programs

As for trees: the listing of a program is that of its outline, its labels tell the instructions but for their places and
bodies (`Instr.front_eq_of_label`), and the program of a tree is put together again from them (`Node.fold_lower`). The
arguments of a call stand in its label: they are none or one, so they need no separator.

`listings_faithful` says of both listings of a source what they show.
-/

namespace CallLang

namespace Instr

/-! ## Outlines of instructions -/

/-- The operands of a call, as they are listed. -/
def operandsText (operands : Option (List Literal)) : Bytes :=
  Bytes.joined (ascii ", ") ((operands.getD []).map Literal.render)

/-- The word in front of a label. -/
def word : Instr → Bytes
  | .missing => []
  | .literal _ _ => Opcode.name .literal
  | .importing _ _ _ => Opcode.name .importing
  | .function _ _ _ _ _ => Opcode.name .function
  | .call _ _ _ => Opcode.name .call

/-- What is behind the word and a space. -/
def detail : Instr → Bytes
  | .missing => []
  | .literal value _ => value.render
  | .importing module name _ => name ++ ascii " from " ++ module
  | .function name _ _ type _ => name ++ ascii " " ++ type.name
  | .call name operands _ => name ++ ascii "(" ++ operandsText operands ++ ascii ")"

/-- What a listing shows of an instruction itself. -/
def label (i : Instr) : Bytes :=
  i.word ++ ascii " " ++ i.detail

mutual

/-- An instruction with its body. -/
def outline : Instr → Outline Instr
  | .function name parameters body type place => .item (.function name parameters body type place) (blockOutlines body)
  | i => .item i []

/-- The outlines of a list of instructions that may be missing. -/
def blockOutlines : Option (List Instr) → List (Outline Instr)
  | none => []
  | some instrs => outlines instrs

/-- The outlines of a list of instructions. -/
def outlines : List Instr → List (Outline Instr)
  | [] => []
  | i :: rest => outline i :: outlines rest

end

mutual

theorem lines_eq (depth : Nat) (i : Instr) (h : .missing ∉ i.preorder) :
    i.lines depth = (i.outline.leveled depth).map (Outline.line label) :=
  match i with
  | .missing => absurd (List.mem_singleton_self _) h
  | .literal _ _ => rfl
  | .importing _ _ _ => rfl
  | .call _ _ _ => rfl
  | .function _ _ body _ _ => by
    rw [lines, blockLines_eq (depth + 1) body (List.not_mem_of_not_mem_cons h)]
    rfl

theorem blockLines_eq (depth : Nat) (block : Option (List Instr)) (h : .missing ∉ blockPreorder block) :
    blockLines depth block = Outline.listing label depth (blockOutlines block) :=
  match block with
  | none => rfl
  | some instrs => allLines_eq depth instrs h

/-- The lines of a list of instructions that are all there list its outlines. -/
theorem allLines_eq (depth : Nat) (instrs : List Instr) (h : .missing ∉ allPreorder instrs) :
    allLines depth instrs = Outline.listing label depth (outlines instrs) :=
  match instrs with
  | [] => rfl
  | i :: rest => by
    rw [allPreorder, List.mem_append, not_or] at h
    rw [allLines, lines_eq depth i h.1, allLines_eq depth rest h.2, Outline.listing, ← List.map_append]
    rfl

end

mutual

theorem map_snd_outline (depth : Nat) (i : Instr) : (i.outline.leveled depth).map Prod.snd = i.preorder :=
  match i with
  | .missing => rfl
  | .literal _ _ => rfl
  | .importing _ _ _ => rfl
  | .call _ _ _ => rfl
  | .function _ _ body _ _ => congrArg (List.cons _) (map_snd_blockOutlines (depth + 1) body)

theorem map_snd_blockOutlines (depth : Nat) (block : Option (List Instr)) :
    (Outline.allLeveled depth (blockOutlines block)).map Prod.snd = blockPreorder block :=
  match block with
  | none => rfl
  | some instrs => map_snd_outlines depth instrs

/-- The heads of the outlines are the instructions that are met. -/
theorem map_snd_outlines (depth : Nat) (instrs : List Instr) :
    (Outline.allLeveled depth (outlines instrs)).map Prod.snd = allPreorder instrs :=
  match instrs with
  | [] => rfl
  | i :: rest => by
    rw [outlines, Outline.allLeveled, List.map_append, map_snd_outline depth i, map_snd_outlines depth rest,
      allPreorder]

end

/-! ## What labels tell -/

/-- The operands that a call of a source can have: none, or one literal. -/
def SpelledOperands (operands : Option (List Literal)) : Prop :=
  operands = none ∨ ∃ value, operands = some [value] ∧ value.Readable

/-- An instruction as a source can have it, apart from its place and its body. -/
def Spelled : Instr → Prop
  | .missing => False
  | .literal value _ => value.Readable
  | .importing module name _ => IsName module ∧ IsName name
  | .function name _ _ type _ => IsName name ∧ type = .void
  | .call name operands _ => IsName name ∧ SpelledOperands operands

/-- The instruction without its place and its body. -/
def front : Instr → Instr
  | .missing => .missing
  | .literal value _ => .literal value none
  | .importing module name _ => .importing module name none
  | .function name _ _ type _ => .function name none none type none
  | .call name operands _ => .call name operands none

theorem legible_word {i : Instr} (h : i.Spelled) : Legible i.word := by
  cases i with
  | missing => exact h.elim
  | _ => exact ⟨by simp only [word]; decide, _, _, rfl, by decide⟩

theorem space_not_mem_word (i : Instr) : 0x20 ∉ i.word := by
  cases i <;> simp only [word] <;> decide

section Operands

variable {operands operands' : Option (List Literal)}

theorem SpelledOperands.feed_not_mem (h : SpelledOperands operands) : 0x0A ∉ operandsText operands := by
  rcases h with rfl | ⟨value, rfl, hv⟩
  · nofun
  · exact hv.feed_not_mem_render

theorem SpelledOperands.eq_of_text (h : SpelledOperands operands) (h' : SpelledOperands operands')
    (he : operandsText operands = operandsText operands') : operands = operands' := by
  rcases h with rfl | ⟨value, rfl, hv⟩
  · rcases h' with rfl | ⟨value', rfl, hv'⟩
    · rfl
    · exact absurd he.symm hv'.render_ne_nil
  · rcases h' with rfl | ⟨value', rfl, hv'⟩
    · exact absurd he hv.render_ne_nil
    · rw [hv.eq_of_render hv' he]

end Operands

theorem Spelled.feed_not_mem_detail {i : Instr} (h : i.Spelled) : 0x0A ∉ i.detail := by
  cases i with
  | missing => exact h.elim
  | literal value _ => exact Literal.Readable.feed_not_mem_render h
  | importing module name _ =>
    rw [detail, List.mem_append, List.mem_append, not_or, not_or]
    exact ⟨⟨h.2.not_mem (by decide), by decide⟩, h.1.not_mem (by decide)⟩
  | function name _ _ type _ =>
    rw [detail, h.2, List.mem_append, List.mem_append, not_or, not_or]
    exact ⟨⟨h.1.not_mem (by decide), by decide⟩, by decide⟩
  | call name operands _ =>
    rw [detail, List.mem_append, List.mem_append, List.mem_append, not_or, not_or, not_or]
    exact ⟨⟨⟨h.1.not_mem (by decide), by decide⟩, SpelledOperands.feed_not_mem h.2⟩, by decide⟩

theorem label_eq (i : Instr) : i.label = i.word ++ 0x20 :: i.detail :=
  List.append_assoc _ _ _

theorem Spelled.legible_label {i : Instr} (h : i.Spelled) : Legible i.label := by
  rw [label_eq]
  exact (legible_word h).before_space h.feed_not_mem_detail

/-- A label tells the sort of an instruction, its names and its literals. -/
theorem front_eq_of_label {i i' : Instr} (h : i.Spelled) (h' : i'.Spelled) (he : i.label = i'.label) :
    i.front = i'.front := by
  rw [label_eq, label_eq] at he
  obtain ⟨hword, hdetail⟩ := eq_of_append_cons i.space_not_mem_word i'.space_not_mem_word he
  cases i <;> cases i'
  case missing.missing => rfl
  case literal.literal value _ value' _ => rw [front, front, Literal.Readable.eq_of_render h h' hdetail]
  case importing.importing module name _ module' name' _ =>
    rw [detail, detail, List.append_assoc, List.append_assoc] at hdetail
    obtain ⟨rfl, hmodule⟩ := eq_of_append_cons (h.2.not_mem (by decide)) (h'.2.not_mem (by decide)) hdetail
    rw [front, front, List.append_cancel_left hmodule]
  case function.function name _ _ type _ name' _ _ type' _ =>
    rw [detail, detail, List.append_assoc, List.append_assoc] at hdetail
    obtain ⟨rfl, _⟩ := eq_of_append_cons (h.1.not_mem (by decide)) (h'.1.not_mem (by decide)) hdetail
    rw [front, front, h.2, h'.2]
  case call.call name operands _ name' operands' _ =>
    have hcall := List.append_cancel_right hdetail
    rw [List.append_assoc, List.append_assoc] at hcall
    obtain ⟨rfl, hoperands⟩ := eq_of_append_cons (h.1.not_mem (by decide)) (h'.1.not_mem (by decide)) hcall
    rw [front, front, SpelledOperands.eq_of_text h.2 h'.2 hoperands]
  -- other sorts have other words
  all_goals
    simp only [word] at hword
    exact absurd hword (by decide)

/-! ## Places do not show -/

mutual

theorem lines_relocate (φ : Option Location → Option Location) (depth : Nat) (i : Instr) :
    (i.relocate φ).lines depth = i.lines depth :=
  match i with
  | .missing => rfl
  | .literal _ _ => rfl
  | .importing _ _ _ => rfl
  | .call _ _ _ => rfl
  | .function _ _ body _ _ => congrArg (List.cons _) (blockLines_relocate φ (depth + 1) body)

theorem blockLines_relocate (φ : Option Location → Option Location) (depth : Nat) (block : Option (List Instr)) :
    blockLines depth (relocateBlock φ block) = blockLines depth block :=
  match block with
  | none => rfl
  | some instrs => allLines_relocate φ depth instrs

theorem allLines_relocate (φ : Option Location → Option Location) (depth : Nat) (instrs : List Instr) :
    allLines depth (relocateAll φ instrs) = allLines depth instrs :=
  match instrs with
  | [] => rfl
  | i :: rest => by
    rw [relocateAll, allLines, allLines, lines_relocate φ depth i, allLines_relocate φ depth rest]

end

/-! ## Instructions from outlines -/

/-- A list of instructions; one without elements is left out. -/
def Block.ofList : List Instr → Block
  | [] => none
  | instrs => some instrs

/-- The instruction with another body. -/
def withInner (head : Instr) (inner : List Instr) : Instr :=
  match head with
  | .function name parameters _ type place => .function name parameters (Block.ofList inner) type place
  | i => i

end Instr

namespace Node

mutual

/-- The instruction of a node as the parser builds it is put together again from its outline, but for its places. -/
theorem fold_lower (n : Node) (h : n.Shaped) :
    ∃ i, n.lower? = some i ∧ (i.outline.map Instr.front).fold Instr.withInner = i.relocate nowhere :=
  match n, h with
  | .literal _ _, _ => ⟨_, rfl, rfl⟩
  | .importing _ _ _, _ => ⟨_, rfl, rfl⟩
  | .call _ _ _, _ => ⟨_, rfl, rfl⟩
  | .function _ _ body _ _, ⟨rfl, rfl, hb⟩ => by
    refine ⟨_, rfl, ?_⟩
    have hbody := foldAll_lowerBlock body hb
    rw [Instr.outline, Outline.map, Outline.fold, Instr.front, Instr.withInner, hbody]
    rfl

theorem foldAll_lowerBlock (block : Option (List Node)) (h : ShapedBlock block) :
    Instr.Block.ofList (Outline.foldAll Instr.withInner
      (Outline.mapAll Instr.front (Instr.blockOutlines (lowerBlock block)))) =
        Instr.relocateBlock nowhere (lowerBlock block) :=
  match block, h with
  | none, _ => rfl
  | some [], h => absurd rfl h.1
  | some (n :: rest), h => by
    obtain ⟨i, hi, _⟩ := fold_lower n h.2.1
    rw [lowerBlock, Instr.blockOutlines, foldAll_lowerAll (n :: rest) h.2, lowerAll, hi]
    rfl

theorem foldAll_lowerAll (nodes : List Node) (h : AllShaped nodes) :
    Outline.foldAll Instr.withInner (Outline.mapAll Instr.front (Instr.outlines (lowerAll nodes))) =
      Instr.relocateAll nowhere (lowerAll nodes) :=
  match nodes, h with
  | [], _ => rfl
  | n :: rest, h => by
    obtain ⟨i, hi, hfold⟩ := fold_lower n h.1
    rw [lowerAll, hi, Option.toList_some, List.singleton_append, Instr.outlines, Outline.mapAll, Outline.foldAll, hfold,
      foldAll_lowerAll rest h.2, Instr.relocateAll]

end

theorem Spelled.lower {n : Node} {i : Instr} (h : n.Spelled) (hi : n.lower? = some i) : i.Spelled := by
  cases n with
  | missing => exact h.elim
  | literal value _ =>
    cases hi
    exact h
  | importing module name _ =>
    cases hi
    exact h
  | function name _ _ type _ =>
    cases hi
    exact h
  | call name arguments _ =>
    cases hi
    refine ⟨h.1, ?_⟩
    rcases h.2 with rfl | ⟨value, place, rfl, hv⟩
    · exact .inl rfl
    · exact .inr ⟨value, rfl, hv⟩

end Node

/-! ## Programs -/

/-- The outlines of the instructions of a program. -/
def Program.outlines (p : Program) : List (Outline Instr) :=
  Instr.blockOutlines p.instructions

theorem Program.render_relocate (φ : Option Location → Option Location) (p : Program) :
    (p.relocate φ).render = p.render := by
  rw [render, render, relocate, Instr.blockLines_relocate]

namespace Tree

variable {t t' : Tree}

theorem Listable.spelled_lower (h : t.Listable) : ∀ i ∈ t.lower.preorder, i.Spelled := by
  intro i hi
  rw [preorder_lower] at hi
  obtain ⟨v, hv, hlower⟩ := List.mem_filterMap.1 hi
  unfold Visit.lower? at hlower
  split at hlower
  · exact (h.spelled v hv).lower hlower
  · cases hlower

theorem Listable.spelled_of_mem_lower (h : t.Listable) {depth : Nat} :
    ∀ e ∈ Outline.allLeveled depth t.lower.outlines, e.2.Spelled := by
  intro e he
  apply h.spelled_lower
  rw [Program.preorder, ← Instr.map_snd_blockOutlines depth]
  exact List.mem_map_of_mem he

theorem Listable.render_lower (h : t.Listable) :
    t.lower.render =
      ascii "program " ++ t.file ++ ascii "\n" ++ Line.renderAll (Outline.listing Instr.label 1 t.lower.outlines) := by
  have hmissing : .missing ∉ t.lower.preorder := fun hm => h.spelled_lower _ hm
  rw [Program.render, Instr.blockLines_eq 1 _ hmissing]
  rfl

/-- The programs of two trees of one file have the same listing just if they are the same, but for their places. -/
theorem render_lower_eq_iff (h : t.Listable) (h' : t'.Listable) (hfile : t.file = t'.file) :
    t.lower.render = t'.lower.render ↔ t.lower.relocate nowhere = t'.lower.relocate nowhere := by
  constructor
  · intro he
    rw [h.render_lower, h'.render_lower, hfile] at he
    have hfronts := Outline.eq_of_listing (fun _ => Instr.Spelled.legible_label) (fun _ _ => Instr.front_eq_of_label)
      h.spelled_of_mem_lower h'.spelled_of_mem_lower (List.append_cancel_left he)
    have hbodies := congrArg (fun os => Instr.Block.ofList (Outline.foldAll Instr.withInner os)) hfronts
    have hblocks := (Node.foldAll_lowerBlock t.statements h.shaped).symm.trans
      (hbodies.trans (Node.foldAll_lowerBlock t'.statements h'.shaped))
    rw [Program.relocate, Program.relocate]
    exact congr (congrArg Program.mk hfile) hblocks
  · intro he
    rw [← t.lower.render_relocate nowhere, he, Program.render_relocate]

end Tree

/-- **Listings are faithful.** Of two sources of one file the listings of the trees are the same just if the trees are,
but for their places, and so are those of the programs. Behind its first line, which names the file, the listing of a
tree has one line for each node that is met, and that of the program one for each instruction, in this order and
indented by two spaces for each level. -/
theorem listings_faithful (file text text' : Bytes) (tree tree' : Tree)
    (h : parse file (tokenize file text) = .ok tree) (h' : parse file (tokenize file text') = .ok tree') :
    (tree.render = tree'.render ↔ tree.relocate nowhere = tree'.relocate nowhere) ∧
    (tree.lower.render = tree'.lower.render ↔ tree.lower.relocate nowhere = tree'.lower.relocate nowhere) ∧
    (∃ body, tree.render = ascii "AST " ++ file ++ ascii "\n" ++ body ∧ Outline.Lists Node.label tree.outlines body ∧
      (Outline.allLeveled 1 tree.outlines).map Prod.snd = tree.visits.map Visit.node) ∧
    ∃ body, tree.lower.render = ascii "program " ++ file ++ ascii "\n" ++ body ∧
      Outline.Lists Instr.label tree.lower.outlines body ∧
      (Outline.allLeveled 1 tree.lower.outlines).map Prod.snd = tree.lower.preorder := by
  have hl := listable_of_parse h (Scanner.spelled_run _)
  have hl' := listable_of_parse h' (Scanner.spelled_run _)
  have hfile := file_of_parse h
  have hfile' := file_of_parse h'
  have hnodes := Outline.lists_renderAll fun e he => (hl.spelled_of_mem e he).legible_label
  have hinstrs := Outline.lists_renderAll fun e he => (hl.spelled_of_mem_lower e he).legible_label
  refine ⟨Tree.render_eq_iff hl hl' (hfile.trans hfile'.symm),
    Tree.render_lower_eq_iff hl hl' (hfile.trans hfile'.symm), ⟨_, ?_, hnodes, tree.map_snd_outlines 1⟩,
    ⟨_, ?_, hinstrs, Instr.map_snd_blockOutlines 1 _⟩⟩
  · rw [tree.render_eq, hfile]
  · rw [hl.render_lower, hfile]

/-- A string with a quote, a line feed and what looks like the line that comes next. A source with other blanks and with
a zero before its number has the same listings. -/
theorem listings_faithful_string :
    let text := ascii "void fn f()" ++ Bytes.braced (ascii "p(\"\\\"\\n    Literal 7\");7;")
    let text' := ascii "void fn f() " ++ Bytes.braced (ascii "p(\"\\\"\\n    Literal 7\");\n07;")
    let nodes := ascii "AST a\n  FuncDecl f() void\n    FuncCall p\n      Literal \"\\\"\\n    Literal 7\"\n    Literal 7\n"
    ∃ tree tree', parse (ascii "a") (tokenize (ascii "a") text) = .ok tree ∧
      parse (ascii "a") (tokenize (ascii "a") text') = .ok tree' ∧ tree.render = nodes ∧ tree'.render = nodes ∧
      tree.relocate nowhere = tree'.relocate nowhere ∧ tree.lower.relocate nowhere = tree'.lower.relocate nowhere ∧
      tree.lower.render = tree'.lower.render ∧
      ∃ body, nodes = ascii "AST a\n" ++ body ∧ Outline.Lists Node.label tree.outlines body := by
  intro text text' nodes
  have hcheck : ∃ tree ∈ (parse (ascii "a") (tokenize (ascii "a") text)).toOption, tree.render = nodes ∧
      ∃ tree' ∈ (parse (ascii "a") (tokenize (ascii "a") text')).toOption, tree.render = tree'.render := by
    decide +kernel
  obtain ⟨tree, ht, hrender, tree', ht', hsame⟩ := hcheck
  have hparse := eq_ok_of_mem_toOption ht
  have hparse' := eq_ok_of_mem_toOption ht'
  obtain ⟨hiff, hiff', ⟨body, hbody, hlines, _⟩, _⟩ := listings_faithful _ text text' tree tree' hparse hparse'
  have htree := hiff.1 hsame
  have hprogram : tree.lower.relocate nowhere = tree'.lower.relocate nowhere := by
    rw [← Tree.lower_relocate, htree, Tree.lower_relocate]
  exact ⟨tree, tree', hparse, hparse', hrender, hsame.symm.trans hrender, htree, hprogram, hiff'.2 hprogram, body,
    hrender.symm.trans hbody, hlines⟩

end CallLang
