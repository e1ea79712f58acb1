import CallLang.Proofs.C.Statements
import CallLang.Proofs.Compiler.Layout
import CallLang.Proofs.Compiler.Places
import CallLang.Proofs.Compiler.Reading
import CallLang.Proofs.Token.Numbers
import Mathlib.Data.List.Basic

/-!
# Numbers and exit codes

A number of a source is one integer all the way: the scanner writes it in decimal, lowering takes it over, the check of
exit codes reads it again (`Derivation.kept_of_visit`), and the C text shows it: the statements with numbers that are
written are those of the source, in order and with the numbers in decimal (`Derivation.numbers_shown`). So the check can
be said on the source: a call that is met is wrong if it calls `exit` with digits that are worth more than 255
(`Derivation.fault_iff`), and the error is about the first such call.

- `Literal.Kept`: what a number is in a source, as a value and in C;
- `Visit.numberToC?`: the C statement of a number, by what its digits in a source are worth;
- `Node.ExitsWith`: a call of `exit` with a number, by what its digits in a source are worth;
- `exit_codes_exact` puts both together for a source that is parsed.
-/

namespace CallLang

/-- A literal is the number that stands at an offset of a source: its digits there are worth less than `2 ^ 63`, it is
read as what they are worth, and its C text is what they are worth in decimal, without leading zeros. -/
structure Literal.Kept (text : Bytes) (offset : Nat) (v : Literal) : Prop where
  digits_ne_nil : digitsAt text offset ≠ []
  value_lt : numeralValue (digitsAt text offset) < 0x8000000000000000
  toInt_eq : v.toInt = .ok (numeralValue (digitsAt text offset) : Int)
  toC_eq : v.toC = decimal (numeralValue (digitsAt text offset))
  value_toC : numeralValue v.toC = numeralValue (digitsAt text offset)
  no_leading_zero : v.toC.head? = some 0x30 → v.toC = ascii "0"

/-- A call of `exit` at a place, with a number whose digits in a source are worth `code`. -/
def Node.ExitsWith (text : Bytes) (code : Nat) (place : Option Location) (n : Node) : Prop :=
  ∃ value l, n = .call (ascii "exit") (some [.literal value (some l)]) place ∧ value.kind = .number ∧
    numeralValue (digitsAt text l.offset.toNat) = code

/-- The C statement of a node that is met as a statement and has a number in it, which is shown as what its digits in a
source are worth, in decimal. -/
def Visit.numberToC? (text : Bytes) : Visit → Option Bytes
  | ⟨.statement, .literal ⟨.number, _⟩ (some l)⟩ =>
    some (C.statement none (decimal (numeralValue (digitsAt text l.offset.toNat))))
  | ⟨.statement, .call name (some [.literal ⟨.number, _⟩ (some l)]) _⟩ =>
    some (C.statement (some name) (decimal (numeralValue (digitsAt text l.offset.toNat))))
  | _ => none

/-! ## Numbers -/

/-- The decimal of a number that fits is read as the number. -/
theorem Literal.toInt_decimal {v : Literal} {n : Nat} (h : v.text = decimal n) (hn : n < 0x8000000000000000) :
    v.toInt = .ok (n : Int) := by
  rw [toInt, h]
  apply Integer.read_decimal
  rw [Integer.greatest]
  omega

/-- A number of a source is kept where it starts. -/
theorem Token.kept_of_number {file text : Bytes} {t : Token} (ht : t ∈ tokenize file text) (hk : t.kind = .number) :
    Literal.Kept text t.start ⟨.number, t.value⟩ := by
  obtain ⟨hne, hlt, hvalue⟩ := value_of_number ht hk
  have hC : Literal.toC ⟨.number, t.value⟩ = decimal (numeralValue (digitsAt text t.start)) := hvalue
  refine ⟨hne, hlt, Literal.toInt_decimal hvalue hlt, hC, ?_, ?_⟩
  · rw [hC, numeralValue_decimal]
  · rw [hC]
    intro hzero
    rw [decimal_head hzero, decimal]
    rfl

/-- A number of a source has a place, and it is kept there. -/
theorem Token.exists_kept {file text : Bytes} {t : Token} (ht : t ∈ tokenize file text) (hk : t.kind = .number) :
    ∃ l, t.place = some l ∧ Literal.Kept text l.offset.toNat ⟨.number, t.value⟩ := by
  obtain ⟨l, hl, _, hoffset⟩ := place_of_mem_tokenize ht
  refine ⟨l, hl, ?_⟩
  rw [hoffset, Int.toNat_natCast]
  exact t.kept_of_number ht hk

/-- Only a number that is greater than 255 is a wrong exit code. -/
theorem Literal.Kept.isExitCode {text : Bytes} {offset : Nat} {v : Literal} (h : v.Kept text offset)
    (hk : v.kind = .number) : Instr.isExitCode v = decide (numeralValue (digitsAt text offset) ≤ 255) := by
  simp only [Instr.isExitCode, hk, h.toInt_eq]
  rw [Bool.eq_iff_iff, Bool.and_eq_true, decide_eq_true_eq, decide_eq_true_eq, decide_eq_true_eq]
  omega

/-- What is wrong with a call of one number. -/
theorem Instr.callFault_number {text name : Bytes} {offset : Nat} {v : Literal} {place : Option Location} {e : RangeError}
    (h : v.Kept text offset) (hk : v.kind = .number) :
    callFault? name [v] place = some e ↔
      name = ascii "exit" ∧ 255 < numeralValue (digitsAt text offset) ∧
        e = ⟨place, ascii "exit", decimal (numeralValue (digitsAt text offset))⟩ := by
  have htext : v.text = decimal (numeralValue (digitsAt text offset)) := by
    rw [← h.toC_eq, Literal.toC, hk]
  rw [callFault?, h.isExitCode hk, htext]
  by_cases hname : name = ascii "exit"
  · subst hname
    by_cases hn : numeralValue (digitsAt text offset) ≤ 255
    · simp [hn, Nat.not_lt.2 hn]
    · simp [isExit, hn, Nat.not_le.1 hn, eq_comm]
  · simp [isExit, hname]

namespace Derivation

variable {file text : Bytes} {ds : List Derivation}

/-- A number that is met in a derived program is kept. -/
theorem kept_of_visit (h : allTokens ds = tokenize file text) {v : Visit}
    (hv : v ∈ Node.allVisits .statement (nodes ds)) {value : Literal} {place : Option Location}
    (hn : v.node = .literal value place) (hk : value.kind = .number) :
    ∃ l, place = some l ∧ value.Kept text l.offset.toNat := by
  obtain ⟨t, ht, hplace, hled⟩ := exists_leader hv
  rw [h] at ht
  rw [hn] at hplace hled
  have hface : t.face = (.number, value.text) := by rw [hled.2, Literal.face, hk]
  obtain ⟨hkind, hvalue⟩ := Prod.mk.inj hface
  obtain ⟨l, hl, hkept⟩ := t.exists_kept ht hkind
  have hliteral : value = ⟨.number, t.value⟩ := by rw [hvalue, ← hk]
  rw [← hliteral] at hkept
  exact ⟨l, hplace.trans hl, hkept⟩

/-- The tokens of a statement in a derived program are tokens of the source. -/
theorem mem_of_statement (h : allTokens ds = tokenize file text) {d : Derivation} (hd : d ∈ allStatements ds) {t : Token}
    (ht : t ∈ d.tokens) : t ∈ tokenize file text := by
  rw [← h]
  exact (allTokens_within ds d hd).subset ht

/-- What is written for a node that is met shows the number in it, if it has one. -/
theorem numberToC_of_visit (h : allTokens ds = tokenize file text) {v : Visit}
    (hv : v ∈ Node.allVisits .statement (nodes ds)) :
    ((v.lower?.bind Instr.statement?).filter C.Part.hasNumber).map C.Part.text = v.numberToC? text := by
  rcases eq_of_visit hv with ⟨d, hd, rfl⟩ | ⟨value, rfl⟩
  · cases d with
    | importing _ _ _ _ _ => rfl
    | function _ _ _ _ _ _ _ _ => rfl
    | literal value stop =>
      cases value with
      | string t => rfl
      | number t =>
        obtain ⟨l, hl, hkept⟩ := t.1.exists_kept (mem_of_statement h hd (by simp [tokens, LiteralToken.token])) t.2
        show some (C.Part.text (.literal ⟨.number, t.1.value⟩)) =
          Visit.numberToC? text ⟨.statement, .literal ⟨.number, t.1.value⟩ t.1.place⟩
        rw [C.Part.text_literal, hkept.toC_eq, hl, Visit.numberToC?]
    | call name opening argument closing stop =>
      cases argument with
      | none => rfl
      | some value =>
        cases value with
        | string t => rfl
        | number t =>
          obtain ⟨l, hl, hkept⟩ := t.1.exists_kept (mem_of_statement h hd (by simp [tokens, LiteralToken.token])) t.2
          show some (C.Part.text (.call name.1.value [⟨.number, t.1.value⟩])) = Visit.numberToC? text
            ⟨.statement, .call name.1.value (some [.literal ⟨.number, t.1.value⟩ t.1.place]) name.1.place⟩
          rw [C.Part.text_call, hkept.toC_eq, hl, Visit.numberToC?]
  · cases value <;> rfl

/-- The statements with numbers that are written for a program show the numbers of the source, in order. -/
theorem numbers_shown (h : allTokens ds = tokenize file text) :
    ((tree file ds).lower.statements.filter C.Part.hasNumber).map C.Part.text =
      (tree file ds).visits.filterMap (Visit.numberToC? text) := by
  rw [Program.statements_eq, Tree.preorder_lower, List.filterMap_filterMap, List.filter_filterMap, List.map_filterMap,
    visits_tree]
  exact List.filterMap_congr fun v hv => numberToC_of_visit h hv

/-- A call with a number is wrong if it calls `exit` and the digits of the number are worth more than 255. -/
theorem callFault_iff (name : Bytes) (place : Option Location) {t : Token} (ht : t ∈ tokenize file text)
    (hk : t.kind = .number) (e : RangeError) :
    Instr.callFault? name [⟨.number, t.value⟩] place = some e ↔
      ∃ code place', (Node.call name (some [.literal ⟨.number, t.value⟩ t.place]) place).ExitsWith text code place' ∧
        255 < code ∧ e = ⟨place', ascii "exit", decimal code⟩ := by
  obtain ⟨l, hl, hkept⟩ := t.exists_kept ht hk
  rw [Instr.callFault_number hkept rfl, hl]
  constructor
  · rintro ⟨rfl, hcode, rfl⟩
    exact ⟨_, place, ⟨_, l, rfl, rfl, rfl⟩, hcode, rfl⟩
  · rintro ⟨code, place', ⟨value, l', hn, _, rfl⟩, hcode, rfl⟩
    cases hn
    exact ⟨rfl, hcode, rfl⟩

/-- A node that is met is wrong if it calls `exit` with digits that are worth more than 255. -/
theorem fault_iff (h : allTokens ds = tokenize file text) {v : Visit}
    (hv : v ∈ Node.allVisits .statement (nodes ds)) (e : RangeError) :
    v.lower?.bind Instr.ownFault? = some e ↔
      ∃ code place, v.node.ExitsWith text code place ∧ 255 < code ∧ e = ⟨place, ascii "exit", decimal code⟩ := by
  -- but for calls with a number, nothing is wrong and nothing exits
  have quiet {n : Node} {o : Option RangeError} (ho : o = none)
      (hn : ∀ name value l place, n = .call name (some [.literal value (some l)]) place → value.kind ≠ .number) :
      o = some e ↔
        ∃ code place, n.ExitsWith text code place ∧ 255 < code ∧ e = ⟨place, ascii "exit", decimal code⟩ := by
    constructor
    · intro he
      rw [ho] at he
      cases he
    · rintro ⟨code, place, ⟨value, l, he, hk, _⟩, _⟩
      exact absurd hk (hn _ value l place he)
  rcases eq_of_visit hv with ⟨d, hd, rfl⟩ | ⟨value, rfl⟩
  · cases d with
    | importing _ _ _ _ _ => exact quiet rfl (by rintro _ _ _ _ ⟨⟩)
    | function _ _ _ _ _ _ _ _ => exact quiet rfl (by rintro _ _ _ _ ⟨⟩)
    | literal value _ => cases value <;> exact quiet rfl (by rintro _ _ _ _ ⟨⟩)
    | call name opening argument closing stop =>
      cases argument with
      | none => exact quiet rfl (by rintro _ _ _ _ ⟨⟩)
      | some value =>
        cases value with
        | string t =>
          refine quiet (by simp [Visit.lower?, node, LiteralToken.node, Node.lower?, Instr.ownFault?, Node.operand,
            Instr.callFault?, Instr.isExitCode]) ?_
          intro _ value l place he
          simp only [node, Option.map_some, LiteralToken.node, Node.call.injEq, Option.some.injEq, List.cons.injEq,
            Node.literal.injEq] at he
          simp [← he.2.1.1.1]
        | number t =>
          have hmem : t.1 ∈ tokenize file text := mem_of_statement h hd (by simp [tokens, LiteralToken.token])
          exact callFault_iff name.1.value name.1.place hmem t.2 e
  · cases value <;> exact quiet rfl (by rintro _ _ _ _ ⟨⟩)

/-- The first wrong call that is met is the first one in the source. -/
theorem exists_first_fault (h : allTokens ds = tokenize file text) {e : RangeError}
    (he : (Node.allVisits .statement (nodes ds)).findSome? (fun v => v.lower?.bind Instr.ownFault?) = some e) :
    ∃ v ∈ Node.allVisits .statement (nodes ds), ∃ code l, v.node.ExitsWith text code (some l) ∧ 255 < code ∧
      (∀ u ∈ Node.allVisits .statement (nodes ds), ∀ code' l', u.node.ExitsWith text code' (some l') → 255 < code' →
        l.offset ≤ l'.offset) ∧
      (∃ t ∈ tokenize file text, t.place = some l ∧ t.kind = .identifier ∧ t.span text = ascii "exit") ∧
      e = ⟨some l, ascii "exit", decimal code⟩ := by
  obtain ⟨before, v, after, hsplit, hfault, hbefore⟩ := List.findSome?_eq_some_iff.1 he
  have hv : v ∈ Node.allVisits .statement (nodes ds) := by
    rw [hsplit]
    simp
  obtain ⟨code, place, hexit, hcode, rfl⟩ := (fault_iff h hv e).1 hfault
  obtain ⟨value, l', hnode, hk, hvalue⟩ := hexit
  -- the token that leads the call
  obtain ⟨t, ht, hplace, hled⟩ := exists_leader hv
  rw [h] at ht
  rw [hnode] at hplace hled
  obtain ⟨l, hl, _, _⟩ := place_of_mem_tokenize ht
  obtain rfl : place = some l := hplace.trans hl
  obtain ⟨hkind, hname⟩ := Prod.mk.inj hled
  obtain ⟨p, rest, hcovers⟩ := exists_covers ht
  refine ⟨v, hv, code, l, ⟨value, l', hnode, hk, hvalue⟩, hcode, ?_, ⟨t, ht, hl, hkind, ?_⟩, rfl⟩
  · intro u hu code' m hexit' hcode'
    have hwrong := (fault_iff h hu _).2 ⟨code', some m, hexit', hcode', rfl⟩
    obtain ⟨value', _, hnode', _⟩ := hexit'
    rw [hsplit] at hu
    rcases List.mem_append.1 hu with hu | hu
    · rw [hbefore u hu] at hwrong
      cases hwrong
    · rcases List.mem_cons.1 hu with rfl | hu
      · rw [hnode] at hnode'
        cases hnode'
        exact Int.le_refl _
      · have hpair := pairwise_visits h
        rw [hsplit, List.map_append, List.map_cons] at hpair
        have hlt := (List.pairwise_cons.1 (List.pairwise_append.1 hpair).2.1).1 _ (List.mem_map_of_mem hu)
        simp only [Node.start, hnode, hnode', Node.place, Option.elim_some] at hlt
        omega
  · exact (hcovers.span_eq_value (by rw [hkind]; decide)).trans hname

end Derivation

/-! ## Sources -/

/-- A program has no C text if a wrong call is met, and the first one is what is wrong. -/
theorem Tree.toC_lower_eq_error_iff {t : Tree} {e : RangeError} :
    t.lower.toC = .error e ↔ t.visits.findSome? (fun v => v.lower?.bind Instr.ownFault?) = some e := by
  rw [Program.toC_eq_error_iff, Instr.firstFault_preorder, ← Program.preorder_eq, Tree.preorder_lower,
    ← List.head?_filterMap, List.filterMap_filterMap, List.head?_filterMap]

/-- **Numbers keep their values, and exit codes are checked exactly.** Take a source that is parsed. Each number in it is
kept, and the program has the literals of the tree. If there is a C text, the literals of the tree are written in it in
order, its statements with numbers show what the digits of these in the source are worth, and the program is read back
from it. There is no C text if some call of `exit` has a number whose digits are worth more than 255, and in no other
case. Then the error is about the first such call: it names `exit`, the code in decimal, and the place of the word `exit`
of this call. -/
theorem exit_codes_exact (c : Compiler) (file text : Bytes) (tree : Tree)
    (h : parse file (tokenize file text) = .ok tree) :
    (∀ v ∈ tree.visits, ∀ value place, v.node = .literal value place → value.kind = .number →
      ∃ l, place = some l ∧ value.Kept text l.offset.toNat) ∧
    tree.lower.preorder.flatMap Instr.values = tree.visits.filterMap (·.node.literal?) ∧
    (∀ value ∈ tree.lower.preorder.flatMap Instr.values, value.kind = .number → ∃ n : Nat, value.toInt = .ok (n : Int)) ∧
    (∀ source, (c.toC file [⟨text, none⟩]).result = .ok source →
      source = tree.lower.header ++ tree.lower.parts.flatMap C.Part.text ∧
      tree.lower.statements.flatMap C.Part.values = tree.visits.filterMap (·.node.literal?) ∧
      (tree.lower.statements.filter C.Part.hasNumber).map C.Part.text = tree.visits.filterMap (Visit.numberToC? text) ∧
      C.program? source = some tree.lower.plain) ∧
    ((∃ e, (c.toC file [⟨text, none⟩]).result = .error e) ↔
      ∃ v ∈ tree.visits, ∃ code place, v.node.ExitsWith text code place ∧ 255 < code) ∧
    ∀ e, (c.toC file [⟨text, none⟩]).result = .error e →
      ∃ v ∈ tree.visits, ∃ code l, v.node.ExitsWith text code (some l) ∧ 255 < code ∧
        (∀ u ∈ tree.visits, ∀ code' l', u.node.ExitsWith text code' (some l') → 255 < code' → l.offset ≤ l'.offset) ∧
        (∃ t ∈ tokenize file text, t.place = some l ∧ t.kind = .identifier ∧ t.span text = ascii "exit") ∧
        e = .range ⟨some l, ascii "exit", decimal code⟩ ∧
        e.message = ascii "generate: " ++ (l.render ++ ascii ": " ++
          (ascii "exit" ++ ascii " code " ++ decimal code ++ ascii " out of range [0, 255]")) := by
  obtain ⟨ds, hd, rfl⟩ := exists_derivation_of_parse h
  have hresult {e : Failure} : (c.toC file [⟨text, none⟩]).result = .error e ↔
      ∃ error, (Node.allVisits .statement (Derivation.nodes ds)).findSome? (fun v => v.lower?.bind Instr.ownFault?) =
        some error ∧ e = .range error := by
    rw [Compiler.result_eq_error_iff, h, ← Derivation.visits_tree file]
    simp [Tree.toC_lower_eq_error_iff]
  refine ⟨?_, Derivation.values_tree file ds, ?_, ?_, ?_, ?_⟩
  · intro v hv value place hn hk
    rw [Derivation.visits_tree] at hv
    exact Derivation.kept_of_visit hd hv hn hk
  · intro value hvalue hk
    rw [Derivation.values_tree, Derivation.visits_tree] at hvalue
    obtain ⟨v, hv, hliteral⟩ := List.mem_filterMap.1 hvalue
    obtain ⟨place, hn⟩ := Node.eq_literal hliteral
    obtain ⟨l, _, hkept⟩ := Derivation.kept_of_visit hd hv hn hk
    exact ⟨_, hkept.toInt_eq⟩
  · intro source hsource
    obtain ⟨tree, htree, htoC⟩ := Compiler.result_eq_ok_iff.1 hsource
    obtain rfl : tree = Derivation.tree file ds := Except.ok.inj (htree.symm.trans h)
    refine ⟨Program.toC_eq_parts htoC, ?_, Derivation.numbers_shown hd, ?_⟩
    · rw [Program.values_statements, Derivation.values_tree]
    · exact Program.program_toC (readable_of_parse h (Scanner.spelled_run _)) htoC
  · rw [Derivation.visits_tree]
    constructor
    · rintro ⟨e, he⟩
      obtain ⟨error, herror, _⟩ := hresult.1 he
      obtain ⟨v, hv, code, l, hexit, hcode, _⟩ := Derivation.exists_first_fault hd herror
      exact ⟨v, hv, code, some l, hexit, hcode⟩
    · rintro ⟨v, hv, code, place, hexit, hcode⟩
      have hfault := (Derivation.fault_iff hd hv _).2 ⟨code, place, hexit, hcode, rfl⟩
      cases hfind : (Node.allVisits .statement (Derivation.nodes ds)).findSome?
          (fun v => v.lower?.bind Instr.ownFault?) with
      | some error => exact ⟨.range error, hresult.2 ⟨error, hfind, rfl⟩⟩
      | none =>
        rw [List.findSome?_eq_none_iff.1 hfind v hv] at hfault
        cases hfault
  · intro e he
    obtain ⟨error, herror, rfl⟩ := hresult.1 he
    obtain ⟨v, hv, code, l, hexit, hcode, hfirst, ht, rfl⟩ := Derivation.exists_first_fault hd herror
    rw [Derivation.visits_tree]
    exact ⟨v, hv, code, l, hexit, hcode, hfirst, ht, rfl, rfl⟩

/-- A code with leading zeros that is good, a string, a code in a function that is too large, and another one behind;
and a source that has a C text, with numbers in it that all had leading zeros. -/
theorem exit_codes_exact_nested :
    let text := ascii "exit(007);void fn f()" ++ Bytes.braced (ascii "exit(\"9\");exit(0300);") ++ ascii "exit(256);"
    let other := ascii "exit(007);void fn f()" ++ Bytes.braced (ascii "exit(\"9\");return(0255);") ++ ascii "042;"
    let source := Program.includeLine ++ ascii "exit(7);void f(void) " ++
      Bytes.braced (ascii "exit(\"9\");return 255;") ++ ascii "42;"
    (∃ tree, parse [] (tokenize [] text) = .ok tree ∧
      (∃ v ∈ tree.visits, v.node.start = 5 ∧ ∃ value l, v.node = .literal value (some l) ∧ value.kind = .number ∧
        value.Kept text l.offset.toNat) ∧
      (Compiler.toC {} [] [⟨text, none⟩]).result =
        .error (.range ⟨some ⟨[], 1, 33, 32⟩, ascii "exit", ascii "300"⟩) ∧
      (∃ v ∈ tree.visits, ∃ code place, v.node.ExitsWith text code place ∧ 255 < code) ∧
      ∃ v ∈ tree.visits, ∃ code l, v.node.ExitsWith text code (some l) ∧
        Failure.range ⟨some ⟨[], 1, 33, 32⟩, ascii "exit", ascii "300"⟩ = .range ⟨some l, ascii "exit", decimal code⟩) ∧
    ∃ tree, parse [] (tokenize [] other) = .ok tree ∧ (Compiler.toC {} [] [⟨other, none⟩]).result = .ok source ∧
      source = tree.lower.header ++ tree.lower.parts.flatMap C.Part.text ∧
      (tree.lower.statements.filter C.Part.hasNumber).map C.Part.text = ["exit(7);", "return 255;", "42;"].map ascii ∧
      C.program? source = some tree.lower.plain := by
  intro text other source
  have hcheck : ∃ tree ∈ (parse [] (tokenize [] text)).toOption,
      (tree.visits.any fun v => v.node.start == 5 && v.node.literal?.any (·.kind == .number)) = true := by
    decide +kernel
  have hresult : (Compiler.toC {} [] [⟨text, none⟩]).result =
      .error (.range ⟨some ⟨[], 1, 33, 32⟩, ascii "exit", ascii "300"⟩) := by
    decide +kernel
  have hother : ∃ tree ∈ (parse [] (tokenize [] other)).toOption,
      tree.visits.filterMap (Visit.numberToC? other) = ["exit(7);", "return 255;", "42;"].map ascii := by
    decide +kernel
  have hsource : (Compiler.toC {} [] [⟨other, none⟩]).result = .ok source := by decide +kernel
  obtain ⟨tree, htree, hany⟩ := hcheck
  have hparse := eq_ok_of_mem_toOption htree
  obtain ⟨hkept, _, _, _, hiff, hfirst⟩ := exit_codes_exact {} [] text tree hparse
  obtain ⟨v, hv, hcode⟩ := List.any_eq_true.1 hany
  obtain ⟨u, hu, code, l, hexit, _, _, _, he, _⟩ := hfirst _ hresult
  rw [Bool.and_eq_true, beq_iff_eq, Option.any_eq_true] at hcode
  obtain ⟨hstart, value, hliteral, hkind⟩ := hcode
  obtain ⟨place, hn⟩ := Node.eq_literal hliteral
  obtain ⟨l', rfl, hvalue⟩ := hkept v hv value place hn (beq_iff_eq.1 hkind)
  obtain ⟨tree', htree', hnumbers⟩ := hother
  have hparse' := eq_ok_of_mem_toOption htree'
  obtain ⟨_, _, _, htext, _⟩ := exit_codes_exact {} [] other tree' hparse'
  obtain ⟨hparts, _, hshown, hread⟩ := htext _ hsource
  exact ⟨⟨tree, hparse, ⟨v, hv, hstart, value, l', hn, beq_iff_eq.1 hkind, hvalue⟩, hresult, hiff.1 ⟨_, hresult⟩, u, hu,
    code, l, hexit, he⟩, tree', hparse', hsource, hparts, hshown.trans hnumbers, hread⟩

end CallLang
