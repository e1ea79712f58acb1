import CallLang.Proofs.Token.Spelling
import CallLang.Proofs.Tree.Writing

/-!
# The nodes of a tree in order

`Tree.visits` goes through a tree from the front to the back: a statement comes before those of its body, and a call
before its arguments.

The nodes of a derived program are led by tokens of it (`Derivation.leads`). These follow each other as the nodes do,
with other tokens between them (`Derivation.leaders_sublist`), and each has the place of its node and is what a node of
its sort starts with (`Derivation.ledBy_of_mem`). Each statement that is met is derived by neighbouring tokens
(`Derivation.tokens_within`), so what is met in the body of a function is led by tokens between its braces.
-/

namespace CallLang

/-! ## Through a tree -/

/-- What a node is in its tree. -/
inductive Role where
  | statement
  | argument
deriving DecidableEq, Repr

/-- A node that is met on the way through a tree. -/
structure Visit where
  role : Role
  node : Node

namespace Node

/-- The place of a node. -/
def place : Node → Option Location
  | .missing => none
  | .literal _ place => place
  | .importing _ _ place => place
  | .function _ _ _ _ place => place
  | .call _ _ place => place

/-- The offset at which a node starts. -/
def start (n : Node) : Nat :=
  (n.place.elim 0 Location.offset).toNat

mutual

/-- The nodes that are met in a node with a given role: the node itself, then its body or its arguments. As in listings,
parameters are left out. -/
def visits (role : Role) : Node → List Visit
  | .function name parameters body type place =>
    ⟨role, .function name parameters body type place⟩ :: blockVisits role body
  | .call name arguments place => ⟨role, .call name arguments place⟩ :: blockVisits .argument arguments
  | n => [⟨role, n⟩]

/-- The nodes that are met in a list that may be missing. -/
def blockVisits (role : Role) : Option (List Node) → List Visit
  | none => []
  | some nodes => allVisits role nodes

/-- The nodes that are met in a list. -/
def allVisits (role : Role) : List Node → List Visit
  | [] => []
  | n :: rest => visits role n ++ allVisits role rest

end

theorem blockVisits_ofList (role : Role) (nodes : List Node) :
    blockVisits role (Block.ofList nodes) = allVisits role nodes := by
  cases nodes <;> rfl

end Node

/-- The nodes that are met in a tree. -/
def Tree.visits (t : Tree) : List Visit :=
  Node.blockVisits .statement t.statements

/-! ## The tokens that lead nodes -/

/-- The kind and the value that a literal has as a token. -/
def Literal.face (v : Literal) : Kind × Bytes :=
  match v.kind with
  | .number => (.number, v.text)
  | .string => (.string, v.text)
  | _ => (.unknown, v.text)

namespace Node

/-- The token that a node starts with: it stands at the place of the node, and it is the word of its sort, its name or its
value. -/
def LedBy (t : Token) (n : Node) : Prop :=
  n.place = t.place ∧
    match n with
    | .missing => False
    | .literal value _ => value.Given ∧ t.face = value.face
    | .importing _ _ _ => t.kind = .importWord
    | .function _ _ _ _ _ => t.kind = .typeName
    | .call name _ _ => t.face = (.identifier, name)

/-- What the first token of a node looks like in a source. -/
def StartsWith (span : Bytes) : Node → Prop
  | .missing => False
  | .literal value _ => value.Given ∧ meaning span = value.face
  | .importing _ _ _ => span = ascii "import"
  | .function _ _ _ _ _ => span = ascii "void"
  | .call name _ _ => span = name

theorem LedBy.ne_missing {t : Token} {n : Node} (h : n.LedBy t) : n ≠ .missing := by
  rintro rfl
  exact h.2

theorem LedBy.start_eq {t : Token} {n : Node} (h : n.LedBy t) : n.start = t.start := by
  rw [start, h.1, Token.start]

end Node

/-! ## First words -/

theorem encoded_operator {c : Char} {kind : Kind} {w : Bytes} (h : operator? c = some kind) (hw : (w, kind) ∈ fixed) :
    encoded [c] = w := by
  unfold operator? at h
  split at h <;> cases h <;> simp [fixed] at hw <;> rw [hw] <;> rfl

theorem eq_of_ofWord {value w : Bytes} (h : (w, Kind.ofWord value) ∈ fixed) : value = w := by
  unfold Kind.ofWord at h
  split at h
  · simp_all [fixed]
  · split at h
    · simp_all [fixed]
    · split at h
      · simp_all [fixed]
      · split at h
        · simp_all [fixed]
        · simp [fixed] at h

/-- A token of a kind that has a fixed word is written as this word. -/
theorem Token.Covers.span_fixed {text w : Bytes} {t : Token} {p : Piece} {rest : List Symbol}
    (h : t.Covers text p rest) (hw : (w, t.kind) ∈ fixed) : t.span text = w := by
  have hplain : t.kind ∉ [Kind.number, .string, .unknown] := by
    simp only [fixed, List.mem_cons, Prod.mk.injEq, List.not_mem_nil, or_false] at hw
    rcases hw with ⟨_, hk⟩ | ⟨_, hk⟩ | ⟨_, hk⟩ | ⟨_, hk⟩ | ⟨_, hk⟩ | ⟨_, hk⟩ | ⟨_, hk⟩ | ⟨_, hk⟩ | ⟨_, hk⟩ <;>
      simp [hk]
  rw [h.span_eq_value hplain]
  rcases wordMeaning_plain h.face_eq.symm hplain with ⟨ho, hv⟩ | ⟨_, _, hof⟩
  · rw [hv]
    exact encoded_operator ho hw
  · rw [← hof] at hw
    exact eq_of_ofWord hw

/-- The first token of a node looks as it should in a source. -/
theorem Node.LedBy.startsWith {file text : Bytes} {t : Token} {n : Node} (h : n.LedBy t) (ht : t ∈ tokenize file text) :
    n.StartsWith (t.span text) := by
  obtain ⟨p, rest, hc⟩ := exists_covers ht
  cases n with
  | missing => exact h.2
  | literal value place => exact ⟨h.2.1, hc.meaning_span.trans h.2.2⟩
  | importing module name place => exact hc.span_fixed (by rw [h.2]; decide)
  | function name parameters body type place => exact hc.span_fixed (by rw [h.2]; decide)
  | call name arguments place =>
    obtain ⟨hk, hv⟩ := Prod.mk.inj h.2
    exact (hc.span_eq_value (by rw [hk]; decide)).trans hv

/-! ## Derivations -/

theorem LiteralToken.ledBy_node (v : LiteralToken) : v.node.LedBy v.token := by
  cases v with
  | number t => exact ⟨rfl, .inl rfl, congrArg (·, t.1.value) t.2⟩
  | string t => exact ⟨rfl, .inr rfl, congrArg (·, t.1.value) t.2⟩

theorem LiteralToken.visits_node (role : Role) (v : LiteralToken) : v.node.visits role = [⟨role, v.node⟩] := by
  cases v <;> rfl

namespace Derivation

mutual

/-- The statements in a statement: itself, then those of its body. -/
def statements : Derivation → List Derivation
  | .function type word name opening closing before body after =>
    .function type word name opening closing before body after :: allStatements body
  | d => [d]

/-- The statements in a program, at all depths. -/
def allStatements : List Derivation → List Derivation
  | [] => []
  | d :: rest => d.statements ++ allStatements rest

end

/-- The first token of a statement. -/
def head : Derivation → Token
  | .importing start _ _ _ _ => start.1
  | .function type _ _ _ _ _ _ _ => type.1
  | .call name _ _ _ _ => name.1
  | .literal value _ => value.token

/-- The argument of a call. -/
def argument? : Derivation → Option LiteralToken
  | .call _ _ argument _ _ => argument
  | _ => none

/-- The nodes of a statement without those of its body, each with the token that leads it. -/
def leads (d : Derivation) : List (Token × Visit) :=
  (d.head, ⟨.statement, d.node⟩) :: (d.argument?.map fun v => (v.token, ⟨.argument, v.node⟩)).toList

theorem ledBy_node (d : Derivation) : d.node.LedBy d.head := by
  cases d with
  | importing start _ _ _ _ => exact ⟨rfl, start.2⟩
  | function type _ _ _ _ _ _ _ => exact ⟨rfl, type.2.1⟩
  | call name _ _ _ _ => exact ⟨rfl, congrArg (·, name.1.value) name.2⟩
  | literal value _ => exact value.ledBy_node

/-- A node is led by the token that it comes with. -/
theorem ledBy_of_mem {d : Derivation} {e : Token × Visit} (h : e ∈ d.leads) : e.2.node.LedBy e.1 := by
  rcases List.mem_cons.1 h with rfl | h
  · exact d.ledBy_node
  · obtain ⟨v, _, rfl⟩ := Option.map_eq_some_iff.1 (Option.mem_toList.1 h)
    exact v.ledBy_node

mutual

/-- The nodes that are met in a statement are those of the statements in it. -/
theorem visits_node (d : Derivation) : d.node.visits .statement = (d.statements.flatMap leads).map Prod.snd :=
  match d with
  | .importing .. => rfl
  | .function _ _ _ _ _ _ body _ => by
    have hbody := allVisits_nodes body
    rw [node, Node.visits, Node.blockVisits_ofList, hbody]
    rfl
  | .call _ _ none _ _ => rfl
  | .call _ _ (some v) _ _ => by
    simp only [node, Option.map_some, Node.visits, Node.blockVisits, Node.allVisits, v.visits_node]
    rfl
  | .literal v _ => v.visits_node .statement

theorem allVisits_nodes (ds : List Derivation) :
    Node.allVisits .statement (nodes ds) = ((allStatements ds).flatMap leads).map Prod.snd :=
  match ds with
  | [] => rfl
  | d :: rest => by
    rw [nodes, Node.allVisits, visits_node d, allVisits_nodes rest, allStatements, List.flatMap_append, List.map_append]

end

/-- The nodes that are met in the tree of a program. -/
theorem visits_tree (file : Bytes) (ds : List Derivation) :
    (tree file ds).visits = Node.allVisits .statement (nodes ds) :=
  Node.blockVisits_ofList _ _

mutual

/-- The tokens that lead nodes come in the order of the nodes. -/
theorem leaders_sublist (d : Derivation) : ((d.statements.flatMap leads).map Prod.fst).Sublist d.tokens :=
  match d with
  | .importing start _ _ _ _ => List.singleton_sublist.2 List.mem_cons_self
  | .function type word name opening closing before body after => by
    have hbody := allLeaders_sublist body
    exact .cons_cons _ (.cons _ (.cons _ (.cons _ (.cons _ (.cons _
      (hbody.trans (List.sublist_append_left _ _)))))))
  | .call name opening none closing stop => List.singleton_sublist.2 List.mem_cons_self
  | .call name opening (some v) closing stop => .cons_cons _ (.cons _ (.cons_cons _ (List.nil_sublist _)))
  | .literal v stop => List.singleton_sublist.2 List.mem_cons_self

theorem allLeaders_sublist (ds : List Derivation) :
    (((allStatements ds).flatMap leads).map Prod.fst).Sublist (allTokens ds) :=
  match ds with
  | [] => .slnil
  | d :: rest => by
    rw [allStatements, List.flatMap_append, List.map_append, allTokens]
    exact (leaders_sublist d).append (allLeaders_sublist rest)

end

mutual

/-- A statement in a statement is derived by neighbouring tokens. -/
theorem tokens_within (d : Derivation) : ∀ e ∈ d.statements, e.tokens <:+: d.tokens :=
  match d with
  | .importing .. => by
    rintro e (_ | ⟨_, ⟨⟩⟩)
    exact List.infix_rfl
  | .function type word name opening closing before body after => by
    intro e he
    rcases List.mem_cons.1 he with rfl | he
    · exact List.infix_rfl
    · obtain ⟨front, back, hbody⟩ := allTokens_within body e he
      rw [tokens, ← hbody]
      exact ⟨[type.1, word.1, name.1, opening.1, closing.1, before.1] ++ front, back ++ [after.1], by simp⟩
  | .call .. => by
    rintro e (_ | ⟨_, ⟨⟩⟩)
    exact List.infix_rfl
  | .literal .. => by
    rintro e (_ | ⟨_, ⟨⟩⟩)
    exact List.infix_rfl

theorem allTokens_within (ds : List Derivation) : ∀ e ∈ allStatements ds, e.tokens <:+: allTokens ds :=
  match ds with
  | [] => nofun
  | d :: rest => by
    intro e he
    rw [allTokens]
    rcases List.mem_append.1 he with he | he
    · exact (tokens_within d e he).trans (List.prefix_append _ _).isInfix
    · exact (allTokens_within rest e he).trans (List.suffix_append _ _).isInfix

end

end Derivation

end CallLang
