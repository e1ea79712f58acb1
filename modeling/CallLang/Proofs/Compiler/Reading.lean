import CallLang.Compiler
import CallLang.Proofs.C.Reading
import CallLang.Proofs.Tree.Grammar

/-!
# C text determines the program

Whatever a source is made into C, its program can be read back from the C text. A source that parses has a derivation,
and the tokens of the derivation are spelled as their kinds ask, so the program that is lowered from it is readable
(`readable_nodes`), by induction on the derivation.
-/

namespace CallLang

/-- The program of a source, if it parses. -/
def lowered (file : Bytes) (coming : List Delivery) : Except ParseError Program :=
  (parse file (Scanner.ofDeliveries file coming).run.1).map Tree.lower

namespace LiteralToken

theorem readable_operand (v : LiteralToken) (h : v.token.Spelled) : v.node.operand.Readable := by
  cases v with
  | number t => exact .inr ⟨rfl, h.2 t.2⟩
  | string t => exact .inl rfl

theorem lower_node (v : LiteralToken) : v.node.lower? = some (.literal v.node.operand v.token.place) := by
  cases v <;> rfl

end LiteralToken

theorem Instr.readableBlock_ofList {nodes : List Node} (h : AllReadable (Node.lowerAll nodes)) :
    ReadableBlock (Node.lowerBlock (Node.Block.ofList nodes)) := by
  cases nodes with
  | nil => trivial
  | cons n rest => exact h

namespace Derivation

mutual

/-- A statement whose tokens are spelled as their kinds ask becomes a readable instruction. -/
theorem readable_node (d : Derivation) (h : ∀ t ∈ d.tokens, t.Spelled) :
    ∃ i, d.node.lower? = some i ∧ i.Readable :=
  match d with
  | .importing .. => ⟨_, rfl, trivial⟩
  | .function type word name opening closing before body after => by
    have hn : IsName name.1.value := (h name.1 (by simp [tokens])).1 name.2
    have hb := readable_nodes body fun t ht => h t (by simp [tokens, ht])
    exact ⟨_, rfl, hn, rfl, rfl, Instr.readableBlock_ofList hb⟩
  | .call name opening argument closing stop => by
    have hn : IsName name.1.value := (h name.1 (by simp [tokens])).1 name.2
    refine ⟨_, rfl, hn, argument.map fun v => v.node.operand, ?_, ?_⟩
    · cases argument <;> rfl
    · intro value hv
      obtain ⟨v, rfl, rfl⟩ := Option.map_eq_some_iff.1 hv
      exact v.readable_operand (h v.token (by simp [tokens]))
  | .literal v stop => ⟨_, v.lower_node, v.readable_operand (h v.token (by simp [tokens]))⟩

theorem readable_nodes (ds : List Derivation) (h : ∀ t ∈ allTokens ds, t.Spelled) :
    Instr.AllReadable (Node.lowerAll (nodes ds)) :=
  match ds with
  | [] => trivial
  | d :: rest => by
    obtain ⟨i, hi, hr⟩ := readable_node d fun t ht => h t (by simp [allTokens, ht])
    rw [nodes, Node.lowerAll, hi]
    exact ⟨hr, readable_nodes rest fun t ht => h t (by simp [allTokens, ht])⟩

end

end Derivation

/-- The program of tokens is readable if their names and numbers are spelled as such. -/
theorem readable_of_parse {file : Bytes} {tokens : List Token} {tree : Tree} (h : parse file tokens = .ok tree)
    (hs : ∀ t ∈ tokens, t.Spelled) : Instr.ReadableBlock tree.lower.instructions := by
  obtain ⟨ds, rfl, rfl⟩ := exists_derivation_of_parse h
  exact Instr.readableBlock_ofList (Derivation.readable_nodes ds hs)

/-- The program of a source is readable. -/
theorem readable_of_lowered {file : Bytes} {coming : List Delivery} {p : Program} (h : lowered file coming = .ok p) :
    Instr.ReadableBlock p.instructions := by
  unfold lowered at h
  cases hp : parse file (Scanner.ofDeliveries file coming).run.1 with
  | error e =>
    rw [hp] at h
    cases h
  | ok tree =>
    rw [hp] at h
    cases h
    exact readable_of_parse hp (Scanner.spelled_run _)

/-- The C text of a source is that of its program. -/
theorem Compiler.lowered_of_toC {c : Compiler} {file text : Bytes} {coming : List Delivery}
    (h : (c.toC file coming).result = .ok text) : ∃ p, lowered file coming = .ok p ∧ p.toC = .ok text := by
  unfold Compiler.toC at h
  dsimp only at h
  split at h
  · cases h
  · split at h
    · cases h
    · next tree hp =>
      split at h
      · cases h
      · next ht =>
        cases h
        exact ⟨tree.lower, by rw [lowered, hp]; rfl, ht⟩

/-- **C text determines the program.** From the C text of a source its program is read back, up to what the text does
not show; so sources with the same C text have the same plain program. -/
theorem toC_determines_program (c : Compiler) (file : Bytes) (coming : List Delivery) (text : Bytes)
    (h : (c.toC file coming).result = .ok text) :
    ∃ p, lowered file coming = .ok p ∧ p.toC = .ok text ∧ C.program? text = some p.plain ∧
      ∀ (c' : Compiler) (file' : Bytes) (coming' : List Delivery), (c'.toC file' coming').result = .ok text →
        ∃ p', lowered file' coming' = .ok p' ∧ p'.plain = p.plain := by
  obtain ⟨p, hp, ht⟩ := Compiler.lowered_of_toC h
  have hr := Program.program_toC (readable_of_lowered hp) ht
  refine ⟨p, hp, ht, hr, ?_⟩
  intro c' file' coming' h'
  obtain ⟨p', hp', ht'⟩ := Compiler.lowered_of_toC h'
  have hr' := Program.program_toC (readable_of_lowered hp') ht'
  exact ⟨p', hp', Option.some.inj (hr'.symm.trans hr)⟩

/-- A `main` inside a `main`, an import, a call of `int`, and a string with a quote, a brace and a control byte; the
other source writes the returns out. -/
theorem toC_determines_program_nested :
    let call := ascii "int(\"\\\"" ++ [Bytes.closeBrace] ++ ascii "\\0\");"
    let source := ascii "import a from b;void fn main()" ++
      Bytes.braced (ascii "void fn main()" ++ Bytes.braced [] ++ call)
    let other := ascii "void fn main()" ++
      Bytes.braced (ascii "void fn main()" ++ Bytes.braced (ascii "return(0);") ++ call ++ ascii "return(00);")
    let text := ascii "int main(void) " ++ Bytes.braced (ascii "int main(void) " ++ Bytes.braced (ascii "return 0;") ++
      ascii "int(\"\\\"" ++ [Bytes.closeBrace] ++ ascii "\\000\");return 0;")
    (Compiler.toC {} [] [⟨source, none⟩]).result = .ok text ∧ (Compiler.toC {} [] [⟨other, none⟩]).result = .ok text ∧
    ∃ p p', lowered [] [⟨source, none⟩] = .ok p ∧ lowered [] [⟨other, none⟩] = .ok p' ∧
      C.program? text = some p.plain ∧ p'.plain = p.plain := by
  intro call source other text
  have hs : (Compiler.toC {} [] [⟨source, none⟩]).result = .ok text := by decide +kernel
  have ho : (Compiler.toC {} [] [⟨other, none⟩]).result = .ok text := by decide +kernel
  obtain ⟨p, hp, _, hr, hu⟩ := toC_determines_program {} [] [⟨source, none⟩] text hs
  obtain ⟨p', hp', he⟩ := hu {} [] [⟨other, none⟩] ho
  exact ⟨hs, ho, p, p', hp, hp', hr, he⟩

end CallLang
