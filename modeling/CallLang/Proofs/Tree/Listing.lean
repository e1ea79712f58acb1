import CallLang.Proofs.Listing
import CallLang.Proofs.Text.Quoted
import CallLang.Proofs.Tree.Preorder

/-!
# Listings of trees

The listing of a tree is that of its outline (`Node.blockLines_eq`), whose heads are the nodes in the order in which they
are met (`Node.map_snd_outlines`).

- `Node.Spelled` are the nodes that a source can have, each by itself: its names are names and its literals can be read
  back. All nodes of a source are spelled (`listable_of_parse`);
- `Node.front_eq_of_label`: then its label tells a node, but for its place and the nodes in it. The word at its front
  tells the sort, and a name ends at the byte behind it, which is in no name;
- `Node.fold_outline`: a node as the parser builds it is put together again from what the labels tell.

So two listings are the same just if the trees are, but for their places (`Tree.render_eq_iff`).
-/

namespace CallLang

/-! ## Names and literals -/

theorem IsName.not_mem {name : Bytes} (h : IsName name) {b : UInt8} (hb : isNamePart b = false) : b ∉ name := by
  intro hmem
  rw [h.all b hmem] at hb
  cases hb

namespace Literal

variable {v v' : Literal}

theorem Readable.feed_not_mem_render (h : v.Readable) : 0x0A ∉ v.render := by
  obtain ⟨kind, text⟩ := v
  rcases h with rfl | ⟨rfl, _, hd⟩
  · exact Quoted.feed_not_mem_quote text
  · exact fun hmem => absurd (hd _ hmem) (by decide)

/-- The text of a number starts with a digit, which is no quote. -/
theorem quote_ne_numeral {text digits : Bytes} (h : IsNumeral digits) : Quoted.quote text ≠ digits := by
  rintro rfl
  exact absurd (h.2 0x22 List.mem_cons_self) (by decide)

theorem Readable.render_ne_nil (h : v.Readable) : v.render ≠ [] := by
  obtain ⟨kind, text⟩ := v
  rcases h with rfl | ⟨rfl, hne, _⟩
  · exact List.cons_ne_nil _ _
  · exact hne

theorem Readable.eq_of_render (h : v.Readable) (h' : v'.Readable) (he : v.render = v'.render) : v = v' := by
  obtain ⟨kind, text⟩ := v
  obtain ⟨kind', text'⟩ := v'
  rcases h with rfl | ⟨rfl, hn⟩
  · rcases h' with rfl | ⟨rfl, hn'⟩
    · rw [show text = text' from Quoted.quote_injective he]
    · exact absurd he (quote_ne_numeral hn')
  · rcases h' with rfl | ⟨rfl, hn'⟩
    · exact absurd he.symm (quote_ne_numeral hn)
    · rw [show text = text' from he]

end Literal

namespace Node

/-! ## Outlines of nodes -/

mutual

/-- A node with its body or its arguments. -/
def outline : Node → Outline Node
  | .function name parameters body type place => .item (.function name parameters body type place) (blockOutlines body)
  | .call name arguments place => .item (.call name arguments place) (blockOutlines arguments)
  | n => .item n []

/-- The outlines of a list of nodes that may be missing. -/
def blockOutlines : Option (List Node) → List (Outline Node)
  | none => []
  | some nodes => outlines nodes

/-- The outlines of a list of nodes. -/
def outlines : List Node → List (Outline Node)
  | [] => []
  | n :: rest => outline n :: outlines rest

end

mutual

theorem lines_eq (depth : Nat) (n : Node) : n.lines depth = (n.outline.leveled depth).map (Outline.line label) :=
  match n with
  | .missing => rfl
  | .literal _ _ => rfl
  | .importing _ _ _ => rfl
  | .function _ _ body _ _ => by
    rw [lines, blockLines_eq (depth + 1) body]
    rfl
  | .call _ arguments _ => by
    rw [lines, blockLines_eq (depth + 1) arguments]
    rfl

theorem blockLines_eq (depth : Nat) (block : Option (List Node)) :
    blockLines depth block = Outline.listing label depth (blockOutlines block) :=
  match block with
  | none => rfl
  | some nodes => allLines_eq depth nodes

/-- The lines of a list of nodes list its outlines. -/
theorem allLines_eq (depth : Nat) (nodes : List Node) :
    allLines depth nodes = Outline.listing label depth (outlines nodes) :=
  match nodes with
  | [] => rfl
  | n :: rest => by
    rw [allLines, lines_eq depth n, allLines_eq depth rest, Outline.listing, ← List.map_append]
    rfl

end

mutual

theorem map_snd_outline (depth : Nat) (role : Role) (n : Node) :
    (n.outline.leveled depth).map Prod.snd = (n.visits role).map Visit.node :=
  match n with
  | .missing => rfl
  | .literal _ _ => rfl
  | .importing _ _ _ => rfl
  | .function _ _ body _ _ => congrArg (List.cons _) (map_snd_blockOutlines (depth + 1) role body)
  | .call _ arguments _ => congrArg (List.cons _) (map_snd_blockOutlines (depth + 1) .argument arguments)

theorem map_snd_blockOutlines (depth : Nat) (role : Role) (block : Option (List Node)) :
    (Outline.allLeveled depth (blockOutlines block)).map Prod.snd = (blockVisits role block).map Visit.node :=
  match block with
  | none => rfl
  | some nodes => map_snd_outlines depth role nodes

/-- The heads of the outlines are the nodes that are met. -/
theorem map_snd_outlines (depth : Nat) (role : Role) (nodes : List Node) :
    (Outline.allLeveled depth (outlines nodes)).map Prod.snd = (allVisits role nodes).map Visit.node :=
  match nodes with
  | [] => rfl
  | n :: rest => by
    rw [outlines, Outline.allLeveled, List.map_append, map_snd_outline depth role n, map_snd_outlines depth role rest,
      allVisits, List.map_append]

end

/-! ## What labels tell -/

/-- A node as a source can have it, apart from its place and its body: names are names, a call has one literal at most,
and literals can be read back from their text. -/
def Spelled : Node → Prop
  | .missing => False
  | .literal value _ => value.Readable
  | .importing module name _ => IsName module ∧ IsName name
  | .function name _ _ type _ => IsName name ∧ type = .void
  | .call name arguments _ =>
    IsName name ∧ (arguments = none ∨ ∃ value place, arguments = some [.literal value place] ∧ value.Readable)

/-- The node without its place and the nodes in it. -/
def front : Node → Node
  | .missing => .missing
  | .literal value _ => .literal value none
  | .importing module name _ => .importing module name none
  | .function name _ _ type _ => .function name none none type none
  | .call name _ _ => .call name none none

/-- The word in front of a label. -/
def word : Node → Bytes
  | .missing => ascii "<nil>"
  | .literal _ _ => ascii "Literal"
  | .importing _ _ _ => ascii "Import"
  | .function _ _ _ _ _ => ascii "FuncDecl"
  | .call _ _ _ => ascii "FuncCall"

/-- What is behind the word and a space. -/
def detail : Node → Bytes
  | .missing => []
  | .literal value _ => value.render
  | .importing module name _ => name ++ 0x20 :: (ascii "from " ++ module)
  | .function name _ _ type _ => name ++ 0x28 :: (ascii ") " ++ type.name)
  | .call name _ _ => name

variable {n n' : Node}

theorem label_eq (h : n.Spelled) : n.label = n.word ++ 0x20 :: n.detail := by
  cases n with
  | missing => exact h.elim
  | literal value _ => rfl
  | importing module name _ => exact List.append_assoc _ _ _
  | function name _ _ type _ => exact List.append_assoc _ _ _
  | call name _ _ => rfl

theorem space_not_mem_word (n : Node) : 0x20 ∉ n.word := by
  cases n <;> simp only [word] <;> decide

theorem Spelled.feed_not_mem_detail (h : n.Spelled) : 0x0A ∉ n.detail := by
  cases n with
  | missing => exact h.elim
  | literal value _ => exact Literal.Readable.feed_not_mem_render h
  | importing module name _ =>
    rw [detail, List.mem_append, List.mem_cons, List.mem_append, not_or, not_or, not_or]
    exact ⟨h.2.not_mem (by decide), by decide, by decide, h.1.not_mem (by decide)⟩
  | function name _ _ type _ =>
    rw [detail, h.2, List.mem_append, not_or]
    exact ⟨h.1.not_mem (by decide), by decide⟩
  | call name _ _ => exact h.1.not_mem (by decide)

theorem legible_word (n : Node) : Legible n.word := by
  cases n <;> exact ⟨by simp only [word]; decide, _, _, rfl, by decide⟩

theorem Spelled.legible_label (h : n.Spelled) : Legible n.label := by
  rw [label_eq h]
  exact n.legible_word.before_space h.feed_not_mem_detail

/-- A label tells the sort of a node, its names and its literal. -/
theorem front_eq_of_label (h : n.Spelled) (h' : n'.Spelled) (he : n.label = n'.label) : n.front = n'.front := by
  rw [label_eq h, label_eq h'] at he
  obtain ⟨hword, hdetail⟩ := eq_of_append_cons n.space_not_mem_word n'.space_not_mem_word he
  cases n <;> cases n'
  case missing.missing => rfl
  case literal.literal value _ value' _ => rw [front, front, Literal.Readable.eq_of_render h h' hdetail]
  case importing.importing module name _ module' name' _ =>
    obtain ⟨rfl, hmodule⟩ := eq_of_append_cons (h.2.not_mem (by decide)) (h'.2.not_mem (by decide)) hdetail
    rw [front, front, List.append_cancel_left hmodule]
  case function.function name _ _ type _ name' _ _ type' _ =>
    obtain ⟨rfl, _⟩ := eq_of_append_cons (h.1.not_mem (by decide)) (h'.1.not_mem (by decide)) hdetail
    rw [front, front, h.2, h'.2]
  case call.call name _ _ name' _ _ => rw [front, front, show name = name' from hdetail]
  -- other sorts have other words
  all_goals
    simp only [word] at hword
    exact absurd hword (by decide)

/-! ## Nodes from outlines -/

/-- The node with other nodes in it. -/
def withInner (head : Node) (inner : List Node) : Node :=
  match head with
  | .function name parameters _ type place => .function name parameters (Block.ofList inner) type place
  | .call name _ place => .call name (Block.ofList inner) place
  | n => n

mutual

/-- A node as the parser builds it is put together again from its outline, but for its places. -/
theorem fold_outline (n : Node) (h : n.Shaped) : (n.outline.map front).fold withInner = n.relocate nowhere :=
  match n, h with
  | .literal _ _, _ => rfl
  | .importing _ _ _, _ => rfl
  | .function name _ body _ _, ⟨rfl, rfl, hb⟩ => by
    have hbody := foldAll_blockOutlines body hb
    rw [outline, Outline.map, Outline.fold, front, withInner, hbody]
    rfl
  | .call _ none _, _ => rfl
  | .call _ (some nodes) _, h => by
    obtain ⟨value, place, ha, _⟩ := h.resolve_left nofun
    cases ha
    rfl

theorem foldAll_blockOutlines (block : Option (List Node)) (h : ShapedBlock block) :
    Block.ofList (Outline.foldAll withInner (Outline.mapAll front (blockOutlines block))) = relocateBlock nowhere block :=
  match block, h with
  | none, _ => rfl
  | some [], h => absurd rfl h.1
  | some (n :: rest), h => by
    rw [blockOutlines, foldAll_outlines (n :: rest) h.2]
    rfl

theorem foldAll_outlines (nodes : List Node) (h : AllShaped nodes) :
    Outline.foldAll withInner (Outline.mapAll front (outlines nodes)) = relocateAll nowhere nodes :=
  match nodes, h with
  | [], _ => rfl
  | n :: rest, h => by
    rw [outlines, Outline.mapAll, Outline.foldAll, fold_outline n h.1, foldAll_outlines rest h.2, relocateAll]

end

/-! ## Places do not show -/

mutual

theorem lines_relocate (φ : Option Location → Option Location) (depth : Nat) (n : Node) :
    (n.relocate φ).lines depth = n.lines depth :=
  match n with
  | .missing => rfl
  | .literal _ _ => rfl
  | .importing _ _ _ => rfl
  | .function _ _ body _ _ => congrArg (List.cons _) (blockLines_relocate φ (depth + 1) body)
  | .call _ arguments _ => congrArg (List.cons _) (blockLines_relocate φ (depth + 1) arguments)

theorem blockLines_relocate (φ : Option Location → Option Location) (depth : Nat) (block : Option (List Node)) :
    blockLines depth (relocateBlock φ block) = blockLines depth block :=
  match block with
  | none => rfl
  | some nodes => allLines_relocate φ depth nodes

theorem allLines_relocate (φ : Option Location → Option Location) (depth : Nat) (nodes : List Node) :
    allLines depth (relocateAll φ nodes) = allLines depth nodes :=
  match nodes with
  | [] => rfl
  | n :: rest => by
    rw [relocateAll, allLines, allLines, lines_relocate φ depth n, allLines_relocate φ depth rest]

end

end Node

/-! ## Trees -/

/-- A tree that can be told from its listing: it has the shape that the parser gives, and all its nodes are spelled. -/
structure Tree.Listable (t : Tree) : Prop where
  shaped : Node.ShapedBlock t.statements
  spelled : ∀ v ∈ t.visits, v.node.Spelled

theorem LiteralToken.exists_readable (v : LiteralToken) (h : v.token.Spelled) :
    ∃ value place, v.node = .literal value place ∧ value.Readable := by
  cases v with
  | number t => exact ⟨_, _, rfl, .inr ⟨rfl, h.2 t.2⟩⟩
  | string t => exact ⟨_, _, rfl, .inl rfl⟩

/-- The nodes of a statement are spelled if its tokens are. -/
theorem Derivation.spelled_of_mem {d : Derivation} (h : ∀ t ∈ d.tokens, t.Spelled) :
    ∀ e ∈ d.leads, e.2.node.Spelled := by
  have spelled {v : LiteralToken} (hv : v.token ∈ d.tokens) : v.node.Spelled := by
    obtain ⟨value, place, hnode, hr⟩ := v.exists_readable (h _ hv)
    rw [hnode]
    exact hr
  have name {t : Terminal .identifier} (ht : t.1 ∈ d.tokens) : IsName t.1.value := (h _ ht).1 t.2
  cases d with
  | importing start t word u stop =>
    rintro e (_ | ⟨_, ⟨⟩⟩)
    exact ⟨name (by simp [tokens]), name (by simp [tokens])⟩
  | function type word t opening closing before body after =>
    rintro e (_ | ⟨_, ⟨⟩⟩)
    exact ⟨name (by simp [tokens]), rfl⟩
  | literal v stop =>
    rintro e (_ | ⟨_, ⟨⟩⟩)
    exact spelled (by simp [tokens])
  | call t opening argument closing stop =>
    have ht : IsName t.1.value := name (by simp [tokens])
    cases argument with
    | none =>
      rintro e (_ | ⟨_, ⟨⟩⟩)
      exact ⟨ht, .inl rfl⟩
    | some v =>
      have hv : v.token ∈ (call t opening (some v) closing stop).tokens := by simp [tokens]
      rintro e (_ | ⟨_, _ | ⟨_, ⟨⟩⟩⟩)
      · obtain ⟨value, place, hnode, hr⟩ := v.exists_readable (h _ hv)
        exact ⟨ht, .inr ⟨value, place, congrArg (fun n => some [n]) hnode, hr⟩⟩
      · exact spelled hv

theorem file_of_parse {file : Bytes} {tokens : List Token} {tree : Tree} (h : parse file tokens = .ok tree) :
    tree.file = file := by
  obtain ⟨ds, _, rfl⟩ := exists_derivation_of_parse h
  rfl

/-- What is parsed can be told from its listing. -/
theorem listable_of_parse {file : Bytes} {tokens : List Token} {tree : Tree} (h : parse file tokens = .ok tree)
    (hs : ∀ t ∈ tokens, t.Spelled) : tree.Listable := by
  obtain ⟨ds, rfl, rfl⟩ := exists_derivation_of_parse h
  refine ⟨Node.shapedBlock_ofList (Derivation.allShaped_nodes ds), ?_⟩
  intro v hv
  rw [Derivation.visits_tree, Derivation.allVisits_nodes] at hv
  obtain ⟨e, he, rfl⟩ := List.mem_map.1 hv
  obtain ⟨d, hd, hmem⟩ := List.mem_flatMap.1 he
  have hwithin := (Derivation.allTokens_within ds d hd).subset
  exact Derivation.spelled_of_mem (fun t ht => hs t (hwithin ht)) e hmem

namespace Tree

/-- The outlines of the statements of a tree. -/
def outlines (t : Tree) : List (Outline Node) :=
  Node.blockOutlines t.statements

/-- The nodes of a tree are met in the order of its outlines. -/
theorem map_snd_outlines (t : Tree) (depth : Nat) :
    (Outline.allLeveled depth t.outlines).map Prod.snd = t.visits.map Visit.node :=
  Node.map_snd_blockOutlines depth .statement t.statements

theorem render_eq (t : Tree) :
    t.render = ascii "AST " ++ t.file ++ ascii "\n" ++ Line.renderAll (Outline.listing Node.label 1 t.outlines) := by
  rw [render, Node.blockLines_eq]
  rfl

theorem render_relocate (φ : Option Location → Option Location) (t : Tree) : (t.relocate φ).render = t.render := by
  rw [render, render, relocate, Node.blockLines_relocate]

variable {t t' : Tree}

theorem Listable.spelled_of_mem (h : t.Listable) {depth : Nat} :
    ∀ e ∈ Outline.allLeveled depth t.outlines, e.2.Spelled := by
  intro e he
  have hnode : e.2 ∈ t.visits.map Visit.node := by
    rw [← t.map_snd_outlines depth]
    exact List.mem_map_of_mem he
  obtain ⟨v, hv, hn⟩ := List.mem_map.1 hnode
  rw [← hn]
  exact h.spelled v hv

/-- Two trees of one file have the same listing just if they are the same, but for their places. -/
theorem render_eq_iff (h : t.Listable) (h' : t'.Listable) (hfile : t.file = t'.file) :
    t.render = t'.render ↔ t.relocate nowhere = t'.relocate nowhere := by
  constructor
  · intro he
    rw [render_eq, render_eq, hfile] at he
    have hfronts := Outline.eq_of_listing (fun _ => Node.Spelled.legible_label) (fun _ _ => Node.front_eq_of_label)
      h.spelled_of_mem h'.spelled_of_mem (List.append_cancel_left he)
    rw [relocate, relocate, hfile, ← Node.foldAll_blockOutlines t.statements h.shaped,
      ← Node.foldAll_blockOutlines t'.statements h'.shaped]
    exact congrArg (fun os => Tree.mk t'.file (Node.Block.ofList (Outline.foldAll Node.withInner os))) hfronts
  · intro he
    rw [← t.render_relocate nowhere, he, render_relocate]

end Tree

end CallLang
