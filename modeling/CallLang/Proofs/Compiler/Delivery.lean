import CallLang.Compiler
import CallLang.Proofs.Token.Scanning

/-!
# Sources in pieces

How a source arrives does not matter: clean deliveries of the same bytes give the same tokens, and the compiler goes the
same way with them. `Scanner.At` has reduced a scanner to the symbols ahead, so all that is left to say is that a
scanner of deliveries and one of the whole text start with the same symbols.
-/

namespace CallLang

/-- Every run on clean deliveries of a text sees the tokens of the text, and no failure. -/
theorem Scanner.runs_eq_tokenize {file : Bytes} {coming : List Delivery} (h : Input.Clean coming) (n : Nat) :
    Scanner.runs [] (.ofDeliveries file coming) n =
      List.replicate n ⟨tokenize file (Input.incoming coming), none⟩ := by
  rw [Scanner.runs_of_clean h, tokenize_eq]

/-- The scanner of clean deliveries gives the tokens of their bytes and meets no failure. -/
theorem Scanner.run_of_clean (file : Bytes) {coming : List Delivery} (h : Input.Clean coming) :
    ∃ s, (Scanner.ofDeliveries file coming).run = (tokenize file (Input.incoming coming), s) ∧ s.failure = none := by
  obtain ⟨s, hs, hat⟩ := (Scanner.at_ofDeliveries file h).run
  exact ⟨s, by rw [hs, tokenize_eq], hat.healthy⟩

/-- The C text of clean deliveries is that of their bytes in one delivery. -/
theorem Compiler.toC_of_clean (c : Compiler) {file : Bytes} {coming : List Delivery} (h : Input.Clean coming) :
    c.toC file coming = c.toC file [⟨Input.incoming coming, none⟩] := by
  obtain ⟨s, hs, hf⟩ := Scanner.run_of_clean file h
  obtain ⟨t, ht, hg⟩ := Scanner.run_of_clean file (Input.clean_single (Input.incoming coming))
  rw [show Input.incoming [⟨Input.incoming coming, none⟩] = Input.incoming coming from List.append_nil _] at ht
  simp only [Compiler.toC, hs, ht, hf, hg]

/-- **The way a source arrives does not show.** Let deliveries of a source have no fault but the end, no byte after it,
and never too many empty ones in a row. Then every run of a scanner on them sees the tokens of the source and no
failure, and a compiler makes of them what it makes of any other such deliveries of the source, with the same reports. -/
theorem delivery_irrelevant (file source : Bytes) (coming : List Delivery) (hc : Input.Clean coming)
    (hs : Input.incoming coming = source) :
    (∀ n, Scanner.runs [] (.ofDeliveries file coming) n = List.replicate n ⟨tokenize file source, none⟩) ∧
    ∀ (c : Compiler) (other : List Delivery), Input.Clean other → Input.incoming other = source →
      c.toC file coming = c.toC file other := by
  subst hs
  refine ⟨Scanner.runs_eq_tokenize hc, ?_⟩
  intro c other ho he
  rw [c.toC_of_clean hc, c.toC_of_clean ho, he]

/-- A two-byte character that is split over two deliveries, with an empty one between them, and the end together with
the last bytes. -/
theorem delivery_irrelevant_split :
    let coming : List Delivery :=
      [⟨ascii "f(\"" ++ [0xC3], none⟩, ⟨[], none⟩, ⟨0xA9 :: ascii "\");", some .ended⟩]
    let source : Bytes := ascii "f(\"" ++ [0xC3, 0xA9] ++ ascii "\");"
    Input.Clean coming ∧ Input.incoming coming = source ∧
    (∀ n, Scanner.runs [] (.ofDeliveries [] coming) n = List.replicate n ⟨tokenize [] source, none⟩) ∧
    Compiler.toC {} [] coming = Compiler.toC {} [] [⟨source, none⟩] := by
  intro coming source
  have hc : Input.Clean coming :=
    @Input.clean_concat [⟨ascii "f(\"" ++ [0xC3], none⟩, ⟨[], none⟩] ⟨0xA9 :: ascii "\");", some .ended⟩
      (by simp) (.inr rfl) (by decide)
  have hs : Input.incoming coming = source := by decide
  have h := delivery_irrelevant [] source coming hc hs
  exact ⟨hc, hs, h.1, h.2 {} _ (Input.clean_single source) (List.append_nil source)⟩

end CallLang
