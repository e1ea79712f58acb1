import CallLang.Proofs.Program.Preorder

/-!
# Nodes and instructions point into the source

A node has the place of the token that leads it, and tokens stand in a source one behind the other. So nodes that are met
later start later (`pairwise_visits`), and what is met in the body of a function starts between the braces of the body
(`exists_functionAt`). Lowering takes the places over (`map_place_lower`). `places_in_source_order` says all of this for
a source that is parsed.
-/

namespace CallLang

/-- The tokens of a function among others: a head that starts at `place`, and the tokens of its body between braces that
match. -/
structure FunctionAt (tokens : List Token) (place : Option Location) (opening : Token) (inner : List Token)
    (closing : Token) : Prop where
  exists_head : ∃ front head back, tokens = front ++ (head ++ opening :: (inner ++ closing :: back)) ∧
    head.map Token.kind = [.typeName, .fnWord, .identifier, .openParen, .closeParen] ∧
    head.head?.map Token.place = some place
  kind_opening : opening.kind = .openBrace
  kind_closing : closing.kind = .closeBrace
  balanced : Parser.Balanced inner

/-- What is between the braces of a function stands between them in a source. -/
theorem FunctionAt.between {file text : Bytes} {place : Option Location} {opening closing t : Token}
    {inner : List Token} (h : FunctionAt (tokenize file text) place opening inner closing) (ht : t ∈ inner) :
    opening.stop ≤ t.start ∧ t.start < closing.start := by
  obtain ⟨front, head, back, htokens, _, _⟩ := h.exists_head
  have hmem : t ∈ tokenize file text := by
    rw [htokens]
    simp [ht]
  have hlt := start_lt_stop_of_mem_tokenize hmem
  have hpair := pairwise_tokenize file text
  rw [htokens] at hpair
  obtain ⟨hopen, hrest⟩ := List.pairwise_cons.1 (List.pairwise_append.1 (List.pairwise_append.1 hpair).2.1).2.1
  have hclose := (List.pairwise_append.1 hrest).2.2 t ht closing List.mem_cons_self
  exact ⟨hopen t (by simp [ht]), by omega⟩

namespace FunctionAt

variable {file text : Bytes} {place : Option Location} {opening closing : Token} {inner : List Token}

/-- The braces of a function are there in a source. -/
theorem span_eq (h : FunctionAt (tokenize file text) place opening inner closing) :
    opening.span text = [Bytes.openBrace] ∧ closing.span text = [Bytes.closeBrace] := by
  obtain ⟨front, head, back, htokens, _, _⟩ := h.exists_head
  constructor
  · obtain ⟨p, rest, hc⟩ := @exists_covers file text opening (by rw [htokens]; simp)
    exact hc.span_fixed (by rw [h.kind_opening]; decide)
  · obtain ⟨p, rest, hc⟩ := @exists_covers file text closing (by rw [htokens]; simp)
    exact hc.span_fixed (by rw [h.kind_closing]; decide)

end FunctionAt

namespace Derivation

variable {ds : List Derivation}

/-- Each node that is met in a derived program is led by one of its tokens. -/
theorem exists_leader {v : Visit} (h : v ∈ Node.allVisits .statement (nodes ds)) :
    ∃ t ∈ allTokens ds, v.node.LedBy t := by
  rw [allVisits_nodes] at h
  obtain ⟨e, he, rfl⟩ := List.mem_map.1 h
  obtain ⟨d, _, hd⟩ := List.mem_flatMap.1 he
  exact ⟨e.1, (allLeaders_sublist ds).subset (List.mem_map_of_mem he), ledBy_of_mem hd⟩

/-- What is met in a derived program are the nodes of the statements in it and the arguments of its calls. -/
theorem eq_of_visit {v : Visit} (h : v ∈ Node.allVisits .statement (nodes ds)) :
    (∃ d ∈ allStatements ds, v = ⟨.statement, d.node⟩) ∨ ∃ value : LiteralToken, v = ⟨.argument, value.node⟩ := by
  rw [allVisits_nodes] at h
  obtain ⟨e, he, rfl⟩ := List.mem_map.1 h
  obtain ⟨d, hd, he⟩ := List.mem_flatMap.1 he
  rcases List.mem_cons.1 he with rfl | he
  · exact .inl ⟨d, hd, rfl⟩
  · obtain ⟨value, _, rfl⟩ := Option.map_eq_some_iff.1 (Option.mem_toList.1 he)
    exact .inr ⟨value, rfl⟩

/-- Each function that is met has its body between braces that match, and the nodes of its body are led by tokens
there. -/
theorem exists_functionAt {v : Visit} (h : v ∈ Node.allVisits .statement (nodes ds)) {name : Bytes}
    {parameters body : Option (List Node)} {type : ReturnType} {place : Option Location}
    (hv : v.node = .function name parameters body type place) :
    ∃ opening inner closing, FunctionAt (allTokens ds) place opening inner closing ∧
      ∀ w ∈ Node.blockVisits .statement body, ∃ t ∈ inner, w.node.LedBy t := by
  rcases eq_of_visit h with ⟨d, hd, rfl⟩ | ⟨value, rfl⟩
  · cases d with
    | function word₁ word₂ word₃ word₄ word₅ before inner after =>
      cases hv
      obtain ⟨front, back, htokens⟩ := allTokens_within ds _ hd
      refine ⟨before.1, allTokens inner, after.1, ⟨?_, before.2, after.2, Parser.balanced_allTokens inner⟩, ?_⟩
      · refine ⟨front, [word₁.1, word₂.1, word₃.1, word₄.1, word₅.1], back, ?_, ?_, rfl⟩
        · rw [← htokens]
          simp [tokens]
        · simp [word₁.2.1, word₂.2, word₃.2, word₄.2, word₅.2]
      · intro w hw
        rw [Node.blockVisits_ofList] at hw
        exact exists_leader hw
    | importing _ _ _ _ _ => cases hv
    | call _ _ _ _ _ => cases hv
    | literal value _ => cases value <;> cases hv
  · cases value <;> cases hv

/-- Nodes that are met later start later. -/
theorem pairwise_visits {file text : Bytes} (h : allTokens ds = tokenize file text) :
    ((Node.allVisits .statement (nodes ds)).map (·.node.start)).Pairwise (· < ·) := by
  have hsub := allLeaders_sublist ds
  rw [h] at hsub
  have hstop := List.pairwise_map.1 ((pairwise_tokenize file text).sublist hsub)
  rw [allVisits_nodes, List.map_map, List.pairwise_map]
  refine hstop.imp_of_mem ?_
  intro e e' he he' hle
  obtain ⟨d, _, hd⟩ := List.mem_flatMap.1 he
  obtain ⟨d', _, hd'⟩ := List.mem_flatMap.1 he'
  have hlt := start_lt_stop_of_mem_tokenize (hsub.subset (List.mem_map_of_mem he))
  show e.2.node.start < e'.2.node.start
  rw [(ledBy_of_mem hd).start_eq, (ledBy_of_mem hd').start_eq]
  omega

end Derivation

/-- The places of instructions are those of the statements that were met, if these are there. -/
theorem map_place_lower {visits : List Visit} (h : ∀ v ∈ visits, v.node ≠ .missing) :
    (visits.filterMap Visit.lower?).map Instr.place =
      (visits.filter (·.role = .statement)).map (·.node.place) := by
  induction visits with
  | nil => rfl
  | cons v visits ih =>
    have hrest := ih fun w hw => h w (List.mem_cons_of_mem _ hw)
    obtain ⟨role, n⟩ := v
    cases role with
    | argument => exact hrest
    | statement =>
      cases hn : n.lower? with
      | none =>
        cases n with
        | missing => exact absurd rfl (h _ List.mem_cons_self)
        | _ => cases hn
      | some i => simp [Visit.lower?, hn, hrest, Node.place_lower hn]

/-- Whether a node is a function with a given name. -/
def Node.isFunction (name : Bytes) : Node → Bool
  | .function name' _ _ _ _ => name' == name
  | _ => false

theorem Node.eq_function {n : Node} {name : Bytes} (h : n.isFunction name = true) :
    ∃ parameters body type place, n = .function name parameters body type place := by
  cases n with
  | function name' parameters body type place =>
    obtain rfl : name' = name := beq_iff_eq.1 h
    exact ⟨parameters, body, type, place, rfl⟩
  | _ => cases h

/-- **Nodes and instructions point into the source, in order.** Each node that is met in the tree of a source has the
place of a token, which is what a node of its sort starts with. Nodes that are met later start later. What is met in the
body of a function starts behind the opening brace of the body and before the brace that matches it. The instructions of
the program have the places of the statements. -/
theorem places_in_source_order (file text : Bytes) (tree : Tree) (h : parse file (tokenize file text) = .ok tree) :
    (∀ v ∈ tree.visits, ∃ t ∈ tokenize file text,
      (∃ l, v.node.place = some l ∧ l.file = file ∧ l.offset = t.start ∧ t.place = some l) ∧
      v.node.start = t.start ∧ v.node.StartsWith (t.span text)) ∧
    (tree.visits.map (·.node.start)).Pairwise (· < ·) ∧
    (∀ v ∈ tree.visits, ∀ name parameters body type place, v.node = .function name parameters body type place →
      ∃ opening inner closing, FunctionAt (tokenize file text) place opening inner closing ∧
        opening.span text = [Bytes.openBrace] ∧ closing.span text = [Bytes.closeBrace] ∧
        ∀ w ∈ Node.blockVisits .statement body, opening.stop ≤ w.node.start ∧ w.node.start < closing.start) ∧
    tree.lower.preorder.map Instr.place = (tree.visits.filter (·.role = .statement)).map (·.node.place) := by
  obtain ⟨ds, hd, rfl⟩ := exists_derivation_of_parse h
  refine ⟨?_, ?_, ?_, ?_⟩
  · intro v hv
    rw [Derivation.visits_tree] at hv
    obtain ⟨t, ht, hled⟩ := Derivation.exists_leader hv
    rw [hd] at ht
    obtain ⟨l, hl, hfile, hoffset⟩ := place_of_mem_tokenize ht
    exact ⟨t, ht, ⟨l, hled.1.trans hl, hfile, hoffset, hl⟩, hled.start_eq, hled.startsWith ht⟩
  · rw [Derivation.visits_tree]
    exact Derivation.pairwise_visits hd
  · intro v hv name parameters body type place hnode
    rw [Derivation.visits_tree] at hv
    obtain ⟨opening, inner, closing, hf, hinner⟩ := Derivation.exists_functionAt hv hnode
    rw [hd] at hf
    refine ⟨opening, inner, closing, hf, hf.span_eq.1, hf.span_eq.2, ?_⟩
    intro w hw
    obtain ⟨t, ht, hled⟩ := hinner w hw
    rw [hled.start_eq]
    exact hf.between ht
  · rw [Tree.preorder_lower]
    apply map_place_lower
    intro v hv
    rw [Derivation.visits_tree] at hv
    obtain ⟨t, _, hled⟩ := Derivation.exists_leader hv
    exact hled.ne_missing

/-- A function in a function, with a call before it and a string of a brace in it, and an import behind. -/
theorem places_in_source_order_nested :
    let string := ascii "\"" ++ [Bytes.closeBrace] ++ ascii "\";"
    let text := ascii "void fn f()" ++ Bytes.braced (ascii "g(07);void fn h()" ++ Bytes.braced string) ++
      ascii "import a from b;"
    ∃ tree, parse [] (tokenize [] text) = .ok tree ∧
      tree.visits.map (·.node.start) = [0, 12, 14, 18, 30, 36] ∧
      (tree.visits.map (·.node.start)).Pairwise (· < ·) ∧
      tree.lower.preorder.map Instr.place = (tree.visits.filter (·.role = .statement)).map (·.node.place) ∧
      ∃ v ∈ tree.visits, ∃ parameters body type place, v.node = .function (ascii "h") parameters body type place ∧
        ∃ opening inner closing, FunctionAt (tokenize [] text) place opening inner closing ∧
          opening.span text = [Bytes.openBrace] ∧ closing.span text = [Bytes.closeBrace] ∧
          ∀ w ∈ Node.blockVisits .statement body, opening.stop ≤ w.node.start ∧ w.node.start < closing.start := by
  intro string text
  have hcheck : ∃ tree ∈ (parse [] (tokenize [] text)).toOption,
      tree.visits.map (·.node.start) = [0, 12, 14, 18, 30, 36] ∧
      (tree.visits.any (·.node.isFunction (ascii "h"))) = true := by
    decide +kernel
  obtain ⟨tree, htree, hstarts, hany⟩ := hcheck
  have hparse := eq_ok_of_mem_toOption htree
  obtain ⟨v, hv, hname⟩ := List.any_eq_true.1 hany
  obtain ⟨_, hpair, hbody, hlower⟩ := places_in_source_order [] text tree hparse
  obtain ⟨parameters, body, type, place, hn⟩ := Node.eq_function hname
  exact ⟨tree, hparse, hstarts, hpair, hlower, v, hv, parameters, body, type, place, hn, hbody v hv _ _ _ _ _ hn⟩

end CallLang
