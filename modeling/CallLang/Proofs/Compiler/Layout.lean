import CallLang.Proofs.Compiler.Delivery
import CallLang.Proofs.Program.Relocation
import CallLang.Proofs.Token.Layout

/-!
# Layout does not show

A text with other blanks has the same tokens at other places (`tokenize_respaced`). Two tokens of a text never share a
place (`Piece.nodup_place`), so there is a function that moves the old places to the new ones (`exists_relocation`), and
everything behind the scanner goes along with it (`parse_relocate`, `Program.toC_relocate`). `layout_irrelevant` puts
this together.
-/

namespace CallLang

/-! ## From the old places to the new ones -/

theorem Piece.nodup_place (file : Bytes) (before : List Symbol) (pieces : List Piece) :
    ((tokens file before pieces).map Token.place).Nodup := by
  have hp : (tokens file before pieces).Pairwise fun t u => t.place ≠ u.place := by
    refine (pairwise_tokens file before pieces).imp_of_mem ?_
    intro t u ht _ hstop hplace
    have hpos := (place_of_mem ht).2
    have hstart : t.start = u.start := by rw [Token.start, Token.start, hplace]
    rw [Token.stop] at hstop
    omega
  exact List.pairwise_map.2 hp

/-- Tokens that differ in their places only are moved by one function, if no two of them share a place. -/
theorem exists_relocation {tokens others : List Token} (h : others.map Token.content = tokens.map Token.content)
    (hd : (tokens.map Token.place).Nodup) : ∃ φ, others = tokens.map (Token.relocate φ) := by
  induction tokens generalizing others with
  | nil => exact ⟨id, List.map_eq_nil_iff.1 h⟩
  | cons t tokens ih =>
    cases others with
    | nil => cases h
    | cons t' others =>
      rw [List.map_cons, List.map_cons] at h
      obtain ⟨hcontent, hrest⟩ := List.cons.inj h
      obtain ⟨hnew, hd⟩ := List.nodup_cons.1 hd
      obtain ⟨φ, rfl⟩ := ih hrest hd
      refine ⟨fun l => if l = t.place then t'.place else φ l, ?_⟩
      simp only [Token.content, Prod.mk.injEq] at hcontent
      obtain ⟨hkind, hvalue, hlength⟩ := hcontent
      rw [List.map_cons]
      congr 1
      · rw [Token.relocate, if_pos rfl, ← hkind, ← hvalue, ← hlength]
      · apply List.map_congr_left
        intro u hu
        have hne : u.place ≠ t.place := by
          intro he
          exact hnew (he ▸ List.mem_map_of_mem hu)
        rw [Token.relocate, Token.relocate, if_neg hne]

/-! ## Results that differ in places only -/

/-- What a compiler makes of a text, it makes of the tokens of the text. -/
theorem Compiler.toC_text (c : Compiler) (file text : Bytes) :
    c.toC file [⟨text, none⟩] =
      match parse file (tokenize file text) with
      | .error e => ⟨c.report [.lex], .error (.parse e)⟩
      | .ok tree =>
        match tree.lower.toC with
        | .error e => ⟨c.report [.lex, .parse, .lower], .error (.range e)⟩
        | .ok source => ⟨c.report [.lex, .parse, .lower, .generate], .ok source⟩ := by
  obtain ⟨s, hs, hf⟩ := Scanner.run_of_clean file (Input.clean_single text)
  rw [show Input.incoming [⟨text, none⟩] = text from List.append_nil text] at hs
  cases hp : parse file (tokenize file text) with
  | error e => simp only [toC, hs, hf, hp]
  | ok tree =>
    cases hc : tree.lower.toC with
    | error e => simp only [toC, hs, hf, hp, hc]
    | ok source => simp only [toC, hs, hf, hp, hc]

theorem Compiler.result_eq_ok_iff {c : Compiler} {file text source : Bytes} :
    (c.toC file [⟨text, none⟩]).result = .ok source ↔
      ∃ tree, parse file (tokenize file text) = .ok tree ∧ tree.lower.toC = .ok source := by
  rw [toC_text]
  cases hp : parse file (tokenize file text) with
  | error e => simp
  | ok tree => cases hc : tree.lower.toC <;> simp [hc]

theorem Compiler.result_eq_error_iff {c : Compiler} {file text : Bytes} {e : Failure} :
    (c.toC file [⟨text, none⟩]).result = .error e ↔
      (∃ error, parse file (tokenize file text) = .error error ∧ e = .parse error) ∨
      ∃ tree error, parse file (tokenize file text) = .ok tree ∧ tree.lower.toC = .error error ∧ e = .range error := by
  rw [toC_text]
  cases hp : parse file (tokenize file text) with
  | error e => simp [eq_comm]
  | ok tree => cases hc : tree.lower.toC <;> simp [hc, eq_comm]

/-- Two places are those of the tokens with one index in two lists. -/
def SameToken (tokens others : List Token) (place place' : Option Location) : Prop :=
  ∃ (i : Nat) (t t' : Token), tokens[i]? = some t ∧ others[i]? = some t' ∧ place = t.place ∧ place' = t'.place

/-- The same C text, or failures with the same words about the same token. -/
inductive SameResult (tokens others : List Token) : Except Failure Bytes → Except Failure Bytes → Prop where
  | text (source : Bytes) : SameResult tokens others (.ok source) (.ok source)
  | parse {e e' : ParseError} (place : SameToken tokens others e.place e'.place)
      (reason : e'.reason.text = e.reason.text) : SameResult tokens others (.error (.parse e)) (.error (.parse e'))
  | range {e e' : RangeError} (place : SameToken tokens others e.place e'.place)
      (function : e'.function = e.function) (value : e'.value = e.value) :
      SameResult tokens others (.error (.range e)) (.error (.range e'))

theorem sameToken_relocate (φ : Option Location → Option Location) {tokens : List Token} {place : Option Location}
    (h : place ∈ tokens.map Token.place) : SameToken tokens (tokens.map (Token.relocate φ)) place (φ place) := by
  obtain ⟨t, ht, rfl⟩ := List.mem_map.1 h
  obtain ⟨i, hi⟩ := List.mem_iff_getElem?.1 ht
  exact ⟨i, t, t.relocate φ, hi, by rw [List.getElem?_map, hi]; rfl, rfl, rfl⟩

/-- Texts whose tokens differ in their places only have results that differ in places only, and the same reports. -/
theorem Compiler.toC_relocate (c : Compiler) {file text text' : Bytes} {φ : Option Location → Option Location}
    (h : tokenize file text' = (tokenize file text).map (Token.relocate φ)) :
    (c.toC file [⟨text', none⟩]).log = (c.toC file [⟨text, none⟩]).log ∧
    SameResult (tokenize file text) (tokenize file text') (c.toC file [⟨text, none⟩]).result
      (c.toC file [⟨text', none⟩]).result := by
  have hparse := parse_relocate φ file (tokenize file text)
  rw [← h] at hparse
  rw [c.toC_text file text, c.toC_text file text']
  cases hp : parse file (tokenize file text) with
  | error e =>
    have hp' : parse file (tokenize file text') = .error (e.relocate φ) := hparse.trans (by rw [hp]; rfl)
    simp only [hp', true_and]
    refine .parse ?_ (e.reason.text_relocate φ)
    rw [h]
    exact sameToken_relocate φ (place_of_parse_error hp)
  | ok tree =>
    have hp' : parse file (tokenize file text') = .ok (tree.relocate φ) := hparse.trans (by rw [hp]; rfl)
    have htext : (tree.relocate φ).lower.toC = tree.lower.toC.mapError (RangeError.relocate φ) := by
      rw [Tree.lower_relocate, Program.toC_relocate]
    cases hc : tree.lower.toC with
    | error e =>
      have hc' : (tree.relocate φ).lower.toC = .error (e.relocate φ) := htext.trans (by rw [hc]; rfl)
      simp only [hp', hc, hc', true_and]
      refine .range ?_ rfl rfl
      rw [h]
      exact sameToken_relocate φ (place_of_range_error hp hc)
    | ok source =>
      have hc' : (tree.relocate φ).lower.toC = .ok source := htext.trans (by rw [hc]; rfl)
      simp only [hp', hc, hc', true_and]
      exact .text source

/-- **Layout does not show.** Let each gap of a text be replaced by blanks, such that tokens that were apart stay apart
and nothing follows a string that is not closed. Then the tokens have the kinds, values and lengths that they had, and a
compiler makes the same C text of them or fails with the same words about the same token, with the same reports. -/
theorem layout_irrelevant (c : Compiler) (file text : Bytes) (others : List Bytes)
    (h : Respacing text (tokenize file text) others) :
    let text' := woven others (spans text (tokenize file text))
    (tokenize file text').map Token.content = (tokenize file text).map Token.content ∧
    (c.toC file [⟨text', none⟩]).log = (c.toC file [⟨text, none⟩]).log ∧
    SameResult (tokenize file text) (tokenize file text') (c.toC file [⟨text, none⟩]).result
      (c.toC file [⟨text', none⟩]).result := by
  intro text'
  obtain ⟨pieces, hr, ht⟩ := tokenize_respaced h
  have hcontent := hr.content_tokens file [] []
  have hd := Piece.nodup_place file [] (cut (Utf8.symbols text)).1
  rw [← ht, ← tokenize_eq] at hcontent
  rw [← tokenize_eq] at hd
  obtain ⟨φ, hφ⟩ := exists_relocation hcontent hd
  exact ⟨hcontent, c.toC_relocate hφ⟩

/-- A stray byte in front of a space, with a wide space in the place of that space, and lines between other tokens. -/
theorem layout_irrelevant_stray :
    let text : Bytes := ascii "f(" ++ [0xE2] ++ ascii " );"
    let others : List Bytes := [ascii "\n", ascii " ", [], [0xE2, 0x80, 0x83], [], ascii "\n"]
    let text' : Bytes := ascii "\nf (" ++ [0xE2, 0xE2, 0x80, 0x83] ++ ascii ");\n"
    Respacing text (tokenize [] text) others ∧ woven others (spans text (tokenize [] text)) = text' ∧
    (tokenize [] text').map Token.content = (tokenize [] text).map Token.content ∧
    (Compiler.toC {} [] [⟨text', none⟩]).log = (Compiler.toC {} [] [⟨text, none⟩]).log ∧
    SameResult (tokenize [] text) (tokenize [] text') (Compiler.toC {} [] [⟨text, none⟩]).result
      (Compiler.toC {} [] [⟨text', none⟩]).result := by
  intro text others text'
  have hlen : (tokenize [] text).length = 5 := by decide +kernel
  have hr : Respacing text (tokenize [] text) others := by
    refine ⟨by rw [hlen]; rfl, ?_, ?_, ?_⟩
    · unfold Blank
      decide +kernel
    · have hinner : ∀ i < 5, 0 < i → (gaps text 0 (tokenize [] text))[i]? ≠ some [] → others[i]? ≠ some [] := by
        decide +kernel
      intro i hpos hi
      rw [hlen] at hi
      exact hinner i hi hpos
    · decide +kernel
  have ht : woven others (spans text (tokenize [] text)) = text' := by decide +kernel
  have h := layout_irrelevant {} [] text others hr
  rw [ht] at h
  exact ⟨hr, ht, h⟩

end CallLang
