import CallLang.Proofs.Text.Boundaries
import CallLang.Proofs.Token.Spans
import CallLang.Proofs.Token.Values

/-!
# Words with other blanks between them

A cut is determined by where its words end: pieces that are blank before their words, and whose words go just as far as
their first symbols take them, are the pieces of a cut (`Piece.Laid`, `cut_of_laid`, `laid_cut`). How far a word goes is
decided by the symbol behind it, and a blank ends all words but a string without its closing quote
(`Piece.Ends.of_same`).

- `Respacing`: blanks that may stand in place of the gaps of a text;
- `Piece.Respaced`, `Piece.Respaced.laid`: the pieces of a text with such blanks are the pieces of a cut again;
- `tokenize_respaced`: so they are the pieces of the tokens, which say what they said before but for their places
  (`Piece.Respaced.content_tokens`).
-/

namespace CallLang

/-- What a token says, apart from its place. -/
def Token.content (t : Token) : Kind × Bytes × Int :=
  (t.kind, t.value, t.length)

/-! ## How far words go -/

/-- Whether the rest of a string has its closing quote, which no active backslash stands before. -/
def closes : List Symbol → Bool
  | [] => false
  | [r] => r.scalar == '"'
  | r :: e :: rest =>
    if r.scalar = '"' then true
    else if r.scalar = '\\' ∧ (escape? e.scalar).isSome then closes rest
    else closes (e :: rest)

/-- A string that is closed goes as far whatever follows, and one that is not takes all that follows. -/
theorem splitString_of_closes {tail rest : List Symbol} (h : splitString (tail ++ rest) = (tail, rest)) :
    (closes tail = true → ∀ rest', splitString (tail ++ rest') = (tail, rest')) ∧
    (closes tail = false → rest = []) := by
  fun_induction closes tail with
  | case1 =>
    refine ⟨nofun, fun _ => ?_⟩
    cases rest with
    | nil => rfl
    | cons e rest =>
      obtain ⟨more, hm⟩ := splitString_cons e rest
      rw [List.nil_append] at h
      rw [h] at hm
      cases hm
  | case2 r =>
    constructor
    · intro hq rest'
      cases rest' with
      | nil => rfl
      | cons e rest' => simp [splitString, beq_iff_eq.1 hq]
    · intro hq
      cases rest with
      | nil => rfl
      | cons e rest =>
        obtain ⟨more, hm⟩ := splitString_cons e rest
        have hne : ¬ r.scalar = '"' := by simpa using hq
        simp only [List.cons_append, List.nil_append, splitString, if_neg hne] at h
        split at h
        · cases h
        · rw [hm] at h
          cases h
  | case3 r e tail hq => simp [splitString, hq] at h
  | case4 r e tail hq he ih =>
    simp only [List.cons_append, splitString, if_neg hq, if_pos he, Prod.mk.injEq, List.cons.injEq, true_and] at h ⊢
    obtain ⟨hclosed, hopen⟩ := ih (Prod.ext h.1 h.2)
    refine ⟨fun hc rest' => ?_, hopen⟩
    rw [hclosed hc rest']
    exact ⟨rfl, rfl⟩
  | case5 r e tail hq he ih =>
    simp only [List.cons_append, splitString, if_neg hq, if_neg he, Prod.mk.injEq, List.cons.injEq, true_and] at h ih ⊢
    obtain ⟨hclosed, hopen⟩ := ih (Prod.ext h.1 h.2)
    refine ⟨fun hc rest' => ?_, hopen⟩
    rw [hclosed hc rest']
    exact ⟨rfl, rfl⟩

/-- Symbols are taken up to the first that is none of a class. -/
theorem span_append_iff {α : Type} {p : α → Bool} {front rest : List α} :
    ((front ++ rest).takeWhile p, (front ++ rest).dropWhile p) = (front, rest) ↔
      (∀ r ∈ front, p r = true) ∧ ∀ r ∈ rest.head?, p r = false := by
  induction front with
  | nil =>
    cases rest with
    | nil => simp
    | cons r rest => cases hr : p r <;> simp [hr]
  | cons q front ih =>
    cases hq : p q with
    | true => simpa [hq, Prod.ext_iff] using ih
    | false => simp [hq]

/-- A blank goes on with no name and no number. -/
theorem isWordPart_of_blank {r : Symbol} (h : r.blank = true) : isWordPart r.scalar = false := by
  rw [← isBlank_scalar] at h
  simp only [isBlank, Bool.or_eq_true, Bool.and_eq_true, decide_eq_true_eq, beq_iff_eq] at h
  apply Bool.eq_false_iff.2
  intro hw
  rcases Bool.or_eq_true_iff.1 hw with hs | hd
  · have := isWordStart_iff.1 hs
    omega
  · have := isDigit_iff.1 hd
    omega

theorem isDigit_of_blank {r : Symbol} (h : r.blank = true) : isDigit r.scalar = false :=
  (Bool.or_eq_false_iff.1 (isWordPart_of_blank h)).2

/-- Symbols of a class that has no blank are taken as far when what follows is changed behind a blank. -/
theorem span_of_same {p : Symbol → Bool} {front a b : List Symbol} (hp : ∀ r, r.blank = true → p r = false)
    (h : ((front ++ a).takeWhile p, (front ++ a).dropWhile p) = (front, a)) (hs : Symbol.SameUntilBlank a b) :
    ((front ++ b).takeWhile p, (front ++ b).dropWhile p) = (front, b) := by
  obtain ⟨hfront, hstop⟩ := span_append_iff.1 h
  apply span_append_iff.2
  refine ⟨hfront, ?_⟩
  intro r hr
  rcases hs.of_mem_head hr with ha | hb
  · exact hstop r ha
  · exact hp r hb

namespace Piece

variable {p : Piece} {pieces others : List Piece} {a b last last' : List Symbol}

/-- The word of a piece ends where `rest` begins. -/
def Ends (p : Piece) (rest : List Symbol) : Prop :=
  splitWord p.head.scalar (p.tail ++ rest) = (p.tail, rest)

/-- The word of a piece is a string without its closing quote. -/
def isOpen (p : Piece) : Bool :=
  p.head.scalar == '"' && !closes p.tail

/-- A string without its closing quote takes all that follows. -/
theorem Ends.eq_nil_of_isOpen (h : p.Ends a) (ho : p.isOpen = true) : a = [] := by
  obtain ⟨hq, hc⟩ := Bool.and_eq_true_iff.1 ho
  have hs : splitString (p.tail ++ a) = (p.tail, a) := by
    rw [Ends, beq_iff_eq.1 hq] at h
    exact h
  exact (splitString_of_closes hs).2 (by simpa using hc)

/-- What follows a word may change behind a blank. -/
theorem Ends.of_same (h : p.Ends a) (hs : Symbol.SameUntilBlank a b) (ho : p.isOpen = true → b = []) : p.Ends b := by
  unfold Ends splitWord at h ⊢
  split
  · next hc =>
    rw [if_pos hc] at h
    rw [← (Prod.mk.inj h).1, List.nil_append]
  · next hc =>
    rw [if_neg hc] at h
    split
    · next hq =>
      rw [if_pos hq] at h
      cases hclose : closes p.tail with
      | true => exact (splitString_of_closes h).1 hclose b
      | false =>
        have ha := (splitString_of_closes h).2 hclose
        rw [ho (by simp [isOpen, hq, hclose]), ← ha]
        exact h
    · next hq =>
      rw [if_neg hq] at h
      split
      · next hd =>
        rw [if_pos hd] at h
        exact span_of_same (fun _ => isDigit_of_blank) h hs
      · next hd =>
        rw [if_neg hd] at h
        split
        · next hw =>
          rw [if_pos hw] at h
          exact span_of_same (fun _ => isWordPart_of_blank) h hs
        · next hw =>
          rw [if_neg hw] at h
          rw [← (Prod.mk.inj h).1, List.nil_append]

/-! ## Pieces of a cut -/

/-- Pieces as a cut has them, with the blanks `last` behind them. -/
def Laid : List Piece → (last : List Symbol) → Prop
  | [], last => ∀ r ∈ last, r.blank = true
  | p :: rest, last => p.Solid ∧ p.Ends (rest.flatMap symbols ++ last) ∧ Laid rest last

end Piece

theorem cut_of_solid {symbols rest : List Symbol} {r : Symbol} (h : symbols.dropWhile Symbol.blank = r :: rest) :
    cut symbols =
      (⟨symbols.takeWhile Symbol.blank, r, (splitWord r.scalar rest).1⟩ :: (cut (splitWord r.scalar rest).2).1,
        (cut (splitWord r.scalar rest).2).2) := by
  rw [cut]
  split
  · next hd => rw [h] at hd; cases hd
  · next hd => rw [h] at hd; cases hd; rfl

theorem laid_cut (symbols : List Symbol) : Piece.Laid (cut symbols).1 (cut symbols).2 := by
  fun_induction cut symbols with
  | case1 symbols h =>
    intro r hr
    exact List.dropWhile_eq_nil_iff.1 h r hr
  | case2 symbols r rest h ih =>
    have hsolid := (solid_cut symbols).1
    rw [cut_of_solid h] at hsolid
    refine ⟨hsolid _ List.mem_cons_self, ?_, ih⟩
    rw [flatten_cut, Piece.Ends, splitWord_append]

/-- Pieces as a cut has them are the pieces of a cut. -/
theorem cut_of_laid {pieces : List Piece} {last : List Symbol} (h : Piece.Laid pieces last) :
    cut (pieces.flatMap Piece.symbols ++ last) = (pieces, last) := by
  induction pieces with
  | nil => exact cut_of_blank (List.dropWhile_eq_nil_iff.2 h)
  | cons p pieces ih =>
    obtain ⟨hsolid, hends, hrest⟩ := h
    have hsymbols : (p :: pieces).flatMap Piece.symbols ++ last =
        p.gap ++ p.head :: (p.tail ++ (pieces.flatMap Piece.symbols ++ last)) := by
      simp [Piece.symbols, Piece.word]
    have hspan := span_append_iff.2 ⟨hsolid.blank, show ∀ r ∈ (p.head :: (p.tail ++
      (pieces.flatMap Piece.symbols ++ last))).head?, r.blank = false by simp [hsolid.solid]⟩
    obtain ⟨hgap, hword⟩ := Prod.mk.inj hspan
    rw [hsymbols, cut_of_solid hword, hgap, hends, ih hrest]

/-! ## Other blanks between the same words -/

namespace Piece

variable {pieces others : List Piece} {last last' : List Symbol}

/-- Of a piece in front of others, only the word has to be looked at. -/
theorem genuine_cons_iff {p : Piece} (h : ∀ r ∈ p.gap, r.blank = true) :
    Symbol.Genuine ((p :: pieces).flatMap symbols ++ last) ↔
      Symbol.Genuine (p.word ++ (pieces.flatMap symbols ++ last)) := by
  rw [List.flatMap_cons, symbols, List.append_assoc, List.append_assoc, Symbol.genuine_blank_append h]

/-- If the first of the pieces had blanks before it, it still has some. -/
def Apart (pieces others : List Piece) : Prop :=
  ∀ p ∈ pieces.head?, p.gap ≠ [] → ∀ q ∈ others.head?, q.gap ≠ []

/-- The same words with other blanks before them. Blanks may be put anywhere, and only those before the first word may
go. -/
inductive Respaced : List Piece → List Piece → Prop where
  | nil : Respaced [] []
  | cons {p : Piece} {gap : List Symbol} {pieces others : List Piece} (blank : ∀ r ∈ gap, r.blank = true)
      (apart : Apart pieces others) (rest : Respaced pieces others) :
      Respaced (p :: pieces) ({ p with gap := gap } :: others)

namespace Respaced

theorem map_word (h : Respaced pieces others) : others.map word = pieces.map word := by
  induction h with
  | nil => rfl
  | cons blank apart rest ih => simp [word, ih]

/-- Behind a word, everything is the same up to a blank. -/
theorem same (h : Respaced pieces others) (ha : Apart pieces others) (hl : ∀ r ∈ last', r.blank = true) :
    Symbol.SameUntilBlank (pieces.flatMap symbols ++ last) (others.flatMap symbols ++ last') := by
  induction h with
  | nil => exact .of_blank _ fun r hr => hl r (List.mem_of_mem_head? hr)
  | @cons p gap pieces others blank apart rest ih =>
    cases gap with
    | nil =>
      have hgap : p.gap = [] := by
        apply Classical.byContradiction
        intro hne
        exact ha p rfl hne _ rfl rfl
      have hsame := (ih apart).append_left p.word
      simpa [symbols, word, hgap] using hsame
    | cons r gap =>
      apply Symbol.SameUntilBlank.of_blank
      intro q hq
      rw [List.flatMap_cons, symbols, List.append_assoc, List.append_assoc, List.cons_append] at hq
      cases hq
      exact blank r List.mem_cons_self

/-- Pieces of a cut that are moved apart are the pieces of a cut. -/
theorem laid (h : Respaced pieces others) (hl : Laid pieces last)
    (hg : Symbol.Genuine (pieces.flatMap symbols ++ last)) (hb : ∀ r ∈ last', r.blank = true)
    (ho : ∀ p ∈ pieces.getLast?, p.isOpen = true → last' = []) :
    Laid others last' ∧ Symbol.Genuine (others.flatMap symbols ++ last') := by
  induction h with
  | nil => exact ⟨hb, Symbol.genuine_of_blank hb⟩
  | @cons p gap pieces others blank apart rest ih =>
    obtain ⟨hsolid, hends, hrest⟩ := hl
    rw [genuine_cons_iff hsolid.blank] at hg
    obtain ⟨hlaid, hgenuine⟩ := ih hrest hg.of_append fun q hq => ho q (by rw [List.getLast?_cons, hq]; rfl)
    have hsame : Symbol.SameUntilBlank (pieces.flatMap symbols ++ last) (others.flatMap symbols ++ last') :=
      rest.same apart hb
    -- an open string is the last word, and nothing may follow it
    have hopen : p.isOpen = true → others.flatMap symbols ++ last' = [] := by
      intro hp
      have hnil := List.append_eq_nil_iff.1 (hends.eq_nil_of_isOpen hp)
      cases rest with
      | nil => exact ho p rfl hp
      | cons => simp [symbols, word] at hnil
    refine ⟨⟨⟨blank, hsolid.solid⟩, hends.of_same hsame hopen, hlaid⟩, ?_⟩
    rw [genuine_cons_iff blank]
    exact hg.append_of_same hsame hgenuine

end Respaced

/-- Blanks are put before words one by one. -/
theorem exists_respaced {gaps : List Bytes} (hlen : gaps.length = pieces.length) (hb : ∀ gap ∈ gaps, Blank gap)
    (ha : ∀ i p, pieces[i + 1]? = some p → p.gap ≠ [] → gaps[i + 1]? ≠ some []) :
    ∃ others, Respaced pieces others ∧ others.map (fun p => Symbol.text p.gap) = gaps := by
  induction pieces generalizing gaps with
  | nil => exact ⟨[], .nil, (List.length_eq_zero_iff.1 hlen).symm⟩
  | cons p pieces ih =>
    cases gaps with
    | nil => cases hlen
    | cons gap gaps =>
      obtain ⟨others, hr, hgaps⟩ := ih (Nat.succ.inj hlen) (fun g hg => hb g (List.mem_cons_of_mem _ hg))
        (fun i q hq => ha (i + 1) q hq)
      refine ⟨{ p with gap := Utf8.symbols gap } :: others, .cons (hb gap List.mem_cons_self) ?_ hr, ?_⟩
      · intro q hq hne q' hq' hnil
        apply ha 0 q (by rw [List.getElem?_cons_succ, ← List.head?_eq_getElem?]; exact hq) hne
        rw [← hgaps, List.getElem?_cons_succ, ← List.head?_eq_getElem?, List.head?_map, hq', Option.map_some, hnil]
        rfl
      · rw [List.map_cons, hgaps, Symbol.text, Utf8.flatMap_bytes_symbols]

/-- What a token says apart from its place does not depend on what stands before it. -/
theorem Respaced.content_tokens (h : Respaced pieces others) (file : Bytes) (before before' : List Symbol) :
    (tokens file before' others).map Token.content = (tokens file before pieces).map Token.content := by
  induction h generalizing before before' with
  | nil => rfl
  | cons blank apart rest ih =>
    rw [tokens, tokens, List.map_cons, List.map_cons, ih]
    rfl

end Piece

/-! ## Texts -/

/-- A span that begins a string and does not close it. -/
def isOpenString (span : Bytes) : Bool :=
  match Utf8.symbols span with
  | [] => false
  | r :: tail => r.scalar == '"' && !closes tail

/-- Blanks that may stand for the gaps of a text: where neighbours have been apart they stay apart, and nothing is put
behind a string that is not closed. -/
structure Respacing (text : Bytes) (tokens : List Token) (others : List Bytes) : Prop where
  length_eq : others.length = tokens.length + 1
  blank : ∀ gap ∈ others, Blank gap
  apart : ∀ i, 0 < i → i < tokens.length → (gaps text 0 tokens)[i]? ≠ some [] → others[i]? ≠ some []
  ended : ∀ span ∈ (spans text tokens).getLast?, isOpenString span = true → others.getLast? = some []

namespace Piece

variable {file text : Bytes} {pieces : List Piece} {last : List Symbol}

theorem length_tokens (file : Bytes) (before : List Symbol) (pieces : List Piece) :
    (tokens file before pieces).length = pieces.length := by
  induction pieces generalizing before with
  | nil => rfl
  | cons p pieces ih => rw [tokens, List.length_cons, List.length_cons, ih]

/-- A word is cut from its own bytes again. -/
theorem genuine_word {p : Piece} (hg : Symbol.Genuine (pieces.flatMap symbols ++ last)) (hp : p ∈ pieces) :
    Symbol.Genuine p.word := by
  obtain ⟨front, back, rfl⟩ := List.append_of_mem hp
  have hword : Symbol.Genuine (p.word ++ (back.flatMap symbols ++ last)) := by
    apply @Symbol.Genuine.of_append (front.flatMap symbols ++ p.gap)
    simpa [symbols] using hg
  exact hword.front

/-- Whether a word is open can be seen from its bytes. -/
theorem isOpenString_text {p : Piece} (h : Symbol.Genuine p.word) : isOpenString (Symbol.text p.word) = p.isOpen := by
  rw [isOpenString, h]
  rfl

/-- Blanks that may stand for the gaps of a text make pieces of a cut with its words. -/
theorem exists_laid (ht : text = Symbol.text (pieces.flatMap symbols ++ last)) (hl : Laid pieces last)
    (hg : Symbol.Genuine (pieces.flatMap symbols ++ last)) {gaps : List Bytes}
    (h : Respacing text (tokens file [] pieces) gaps) :
    ∃ others last', Respaced pieces others ∧ Laid others last' ∧ Symbol.Genuine (others.flatMap symbols ++ last') ∧
      woven gaps (spans text (tokens file [] pieces)) = Symbol.text (others.flatMap symbols ++ last') := by
  have hgaps := @gaps_tokens [] last pieces text ht file
  have hspans := @spans_tokens [] last pieces text ht file
  obtain ⟨hlen, hblank, hapart, hended⟩ := h
  rw [show (Symbol.text []).length = 0 from rfl] at hgaps
  rw [hgaps, length_tokens] at hapart
  rw [length_tokens] at hlen
  rw [hspans] at hended ⊢
  rcases List.eq_nil_or_concat gaps with rfl | ⟨front, gap, rfl⟩
  · cases hlen
  have hfront : front.length = pieces.length := by simpa using hlen
  have hinner : ∀ i p, pieces[i + 1]? = some p → p.gap ≠ [] → front[i + 1]? ≠ some [] := by
    intro i p hp hne
    have hi : i + 1 < pieces.length := (List.getElem?_eq_some_iff.1 hp).1
    have hi' : i + 1 < (pieces.map fun p => Symbol.text p.gap).length := by simpa using hi
    have happ := hapart (i + 1) (by omega) hi
    rw [List.getElem?_append_left hi', List.getElem?_map, hp, List.concat_eq_append,
      List.getElem?_append_left (by omega)] at happ
    exact happ (by simpa [Symbol.text_eq_nil_iff] using hne)
  obtain ⟨others, hr, hothers⟩ := exists_respaced hfront (fun g hg => hblank g (by simp [hg])) hinner
  have hopen : ∀ p ∈ pieces.getLast?, p.isOpen = true → Utf8.symbols gap = [] := by
    intro p hp ho
    have hspan : Symbol.text p.word ∈ (pieces.map fun p => Symbol.text p.word).getLast? := by
      rw [List.getLast?_map, hp]
      rfl
    have hlast := hended _ hspan (by rw [isOpenString_text (genuine_word hg (List.mem_of_getLast? hp)), ho])
    rw [List.concat_eq_append, List.getLast?_concat, Option.some.injEq] at hlast
    rw [hlast, Utf8.symbols_nil]
  obtain ⟨hlaid, hgenuine⟩ := hr.laid hl hg (hblank gap (by simp)) hopen
  refine ⟨others, Utf8.symbols gap, hr, hlaid, hgenuine, ?_⟩
  have hwords : others.map (fun p => Symbol.text p.word) = pieces.map fun p => Symbol.text p.word := by
    simpa [Function.comp_def] using congrArg (List.map Symbol.text) hr.map_word
  rw [← woven_pieces, hothers, hwords, List.concat_eq_append, Symbol.text, Utf8.flatMap_bytes_symbols]

end Piece

/-- The pieces of a text with other blanks are the same words, respaced. -/
theorem tokenize_respaced {file text : Bytes} {others : List Bytes} (h : Respacing text (tokenize file text) others) :
    ∃ pieces, Piece.Respaced (cut (Utf8.symbols text)).1 pieces ∧
      tokenize file (woven others (spans text (tokenize file text))) = Piece.tokens file [] pieces := by
  have hflat := flatten_cut (Utf8.symbols text)
  rw [tokenize_eq file text] at h ⊢
  obtain ⟨pieces, last, hr, hlaid, hgenuine, hwoven⟩ := Piece.exists_laid
    (by rw [hflat]; exact (Utf8.flatMap_bytes_symbols text).symm) (laid_cut (Utf8.symbols text))
    (by rw [hflat]; exact Symbol.genuine_symbols text) h
  refine ⟨pieces, hr, ?_⟩
  rw [hwoven, tokenize_eq, hgenuine, cut_of_laid hlaid]

end CallLang
