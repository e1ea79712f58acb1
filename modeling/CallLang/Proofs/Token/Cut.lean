import CallLang.Proofs.Text.Symbols
import CallLang.Token.Scanner
import Mathlib.Data.List.Induction
import Mathlib.Data.List.TakeWhile

/-!
# A text cut into words

What a scanner makes of a text, said on the list of its symbols and without a state. A text is cut into pieces, each of
them blanks followed by a word, and into the blanks at its end. The first symbol of a word decides how far it goes
(`splitWord`) and, with the symbols of the word, its kind and its value (`wordMeaning`).

- `cut` is the cut of a text, and `flatten_cut` says that it loses nothing;
- `Piece.tokens` are the tokens of the pieces: where each stands is decided by the symbols before it;
- `Piece.Solid`, `solid_cut`: a gap is blank, and a word starts with a symbol that is not.
-/

namespace CallLang

/-- The place behind some symbols. -/
def Position.past (before : List Symbol) : Position :=
  before.foldl Position.advance {}

/-- The bytes of a list of symbols. -/
def Symbol.text (symbols : List Symbol) : Bytes :=
  symbols.flatMap Symbol.bytes

@[simp] theorem Symbol.text_nil : Symbol.text [] = [] :=
  rfl

@[simp] theorem Symbol.text_append (a b : List Symbol) : Symbol.text (a ++ b) = Symbol.text a ++ Symbol.text b :=
  List.flatMap_append

@[simp] theorem Symbol.text_cons (r : Symbol) (rest : List Symbol) :
    Symbol.text (r :: rest) = r.bytes ++ Symbol.text rest :=
  rfl

namespace Position

@[simp] theorem past_concat (before : List Symbol) (r : Symbol) : past (before ++ [r]) = (past before).advance r := by
  simp [past]

/-- The offset is the number of bytes before a place. -/
theorem offset_past (before : List Symbol) : (past before).offset = (Symbol.text before).length := by
  induction before using List.reverseRecOn with
  | nil => rfl
  | append_singleton before r ih => simp [ih, Symbol.width, Symbol.text]

end Position

/-! ## Words -/

/-- The rest of a string from behind its opening quote, and what follows it. The string ends at its closing quote, which
no active backslash stands before, or with the text. -/
def splitString : List Symbol → List Symbol × List Symbol
  | [] => ([], [])
  | [r] => ([r], [])
  | r :: e :: rest =>
    if r.scalar = '"' then ([r], e :: rest)
    else if r.scalar = '\\' ∧ (escape? e.scalar).isSome then
      (r :: e :: (splitString rest).1, (splitString rest).2)
    else (r :: (splitString (e :: rest)).1, (splitString (e :: rest)).2)

/-- What the rest of a string stands for, up to its closing quote. -/
def stringValue : List Symbol → List Char
  | [] => []
  | [r] => if r.scalar = '"' then [] else [r.scalar]
  | r :: e :: rest =>
    if r.scalar = '"' then []
    else if r.scalar = '\\' then
      match escape? e.scalar with
      | some c => c :: stringValue rest
      | none => '\\' :: stringValue (e :: rest)
    else r.scalar :: stringValue (e :: rest)

/-- The rest of a word from behind its first symbol, and what follows it. -/
def splitWord (c : Char) (symbols : List Symbol) : List Symbol × List Symbol :=
  if (operator? c).isSome then ([], symbols)
  else if c = '"' then splitString symbols
  else if isDigit c then (symbols.takeWhile (isDigit ·.scalar), symbols.dropWhile (isDigit ·.scalar))
  else if isWordStart c then (symbols.takeWhile (isWordPart ·.scalar), symbols.dropWhile (isWordPart ·.scalar))
  else ([], symbols)

/-- The kind and the value of a word with the first character `c`. -/
def wordMeaning (c : Char) (tail : List Symbol) : Kind × Bytes :=
  match operator? c with
  | some kind => (kind, encoded [c])
  | none =>
    if c = '"' then (.string, encoded (stringValue tail))
    else if isDigit c then
      let text := encoded (c :: tail.map Symbol.scalar)
      match Integer.read text with
      | .ok n => (.number, signed n)
      | .error _ => (.unknown, text)
    else if isWordStart c then
      let word := encoded (c :: tail.map Symbol.scalar)
      (Kind.ofWord word, word)
    else (.unknown, encoded [c])

theorem splitString_append (symbols : List Symbol) : (splitString symbols).1 ++ (splitString symbols).2 = symbols := by
  fun_induction splitString symbols with
  | case1 => rfl
  | case2 => rfl
  | case3 => rfl
  | case4 r e rest _ _ ih => rw [List.cons_append, List.cons_append, ih]
  | case5 r e rest _ _ ih => rw [List.cons_append, ih]

/-- The first symbol of what is left of a string belongs to it. -/
theorem splitString_cons (e : Symbol) (rest : List Symbol) : ∃ more, (splitString (e :: rest)).1 = e :: more := by
  cases rest with
  | nil => exact ⟨[], rfl⟩
  | cons f rest =>
    rw [splitString]
    split
    · exact ⟨[], rfl⟩
    · split
      · exact ⟨_, rfl⟩
      · exact ⟨_, rfl⟩

/-- What a string stands for does not depend on what follows it. -/
theorem stringValue_splitString (symbols : List Symbol) : stringValue (splitString symbols).1 = stringValue symbols := by
  fun_induction splitString symbols with
  | case1 => rfl
  | case2 r => rfl
  | case3 r e rest hq => simp [stringValue, hq]
  | case4 r e rest hq he ih =>
    obtain ⟨c, hc⟩ := Option.isSome_iff_exists.1 he.2
    simp [stringValue, he.1, hc, ih]
  | case5 r e rest hq he ih =>
    obtain ⟨more, hm⟩ := splitString_cons e rest
    rw [hm] at ih ⊢
    by_cases hb : r.scalar = '\\'
    · have hc : escape? e.scalar = none := by simpa [hb] using he
      simp [stringValue, hb, hc, ih]
    · simp [stringValue, hq, hb, ih]

theorem splitWord_append (c : Char) (symbols : List Symbol) :
    (splitWord c symbols).1 ++ (splitWord c symbols).2 = symbols := by
  unfold splitWord
  split
  · rfl
  · split
    · exact splitString_append symbols
    · split
      · exact List.takeWhile_append_dropWhile
      · split
        · exact List.takeWhile_append_dropWhile
        · rfl

/-! ## Pieces -/

/-- A piece of a text: blanks, and the word behind them. -/
structure Piece where
  gap : List Symbol
  head : Symbol
  tail : List Symbol

namespace Piece

/-- The symbols of the word. -/
def word (p : Piece) : List Symbol :=
  p.head :: p.tail

/-- The symbols of the piece. -/
def symbols (p : Piece) : List Symbol :=
  p.gap ++ p.word

/-- The token of a piece that has `before` in front of it. -/
def token (file : Bytes) (before : List Symbol) (p : Piece) : Token where
  kind := (wordMeaning p.head.scalar p.tail).1
  value := (wordMeaning p.head.scalar p.tail).2
  place := some (.ofPosition file (.past (before ++ p.gap)))
  length := (Symbol.text p.word).length

/-- The tokens of the pieces that follow `before`. -/
def tokens (file : Bytes) (before : List Symbol) : List Piece → List Token
  | [] => []
  | p :: rest => p.token file before :: tokens file (before ++ p.symbols) rest

/-- The gap is blank, and the word starts with a symbol that is not. -/
structure Solid (p : Piece) : Prop where
  blank : ∀ r ∈ p.gap, r.blank = true
  solid : p.head.blank = false

end Piece

/-- Cuts symbols into pieces and the blanks at the end. -/
def cut (symbols : List Symbol) : List Piece × List Symbol :=
  match _h : symbols.dropWhile Symbol.blank with
  | [] => ([], symbols)
  | r :: rest =>
    (⟨symbols.takeWhile Symbol.blank, r, (splitWord r.scalar rest).1⟩ :: (cut (splitWord r.scalar rest).2).1,
      (cut (splitWord r.scalar rest).2).2)
termination_by symbols.length
decreasing_by
  all_goals
    have h₁ := congrArg List.length (List.takeWhile_append_dropWhile (p := Symbol.blank) (l := symbols))
    have h₂ := congrArg List.length (splitWord_append r.scalar rest)
    rw [_h] at h₁
    simp only [List.length_append, List.length_cons] at h₁ h₂
    omega

theorem cut_of_blank {symbols : List Symbol} (h : symbols.dropWhile Symbol.blank = []) : cut symbols = ([], symbols) := by
  rw [cut]
  split
  · rfl
  · next hd => rw [h] at hd; cases hd

/-- The pieces and the blanks at the end make up the text. -/
theorem flatten_cut (symbols : List Symbol) :
    (cut symbols).1.flatMap Piece.symbols ++ (cut symbols).2 = symbols := by
  fun_induction cut symbols with
  | case1 => rfl
  | case2 symbols r rest h ih =>
    rw [List.flatMap_cons, List.append_assoc, ih, Piece.symbols, Piece.word, List.append_assoc, List.cons_append,
      splitWord_append, ← h, List.takeWhile_append_dropWhile]

/-- Gaps are blank and words are not. -/
theorem solid_cut (symbols : List Symbol) :
    (∀ p ∈ (cut symbols).1, p.Solid) ∧ ∀ r ∈ (cut symbols).2, r.blank = true := by
  fun_induction cut symbols with
  | case1 symbols h => exact ⟨by simp, fun r hr => List.dropWhile_eq_nil_iff.1 h r hr⟩
  | case2 symbols r rest h ih =>
    refine ⟨?_, ih.2⟩
    intro p hp
    rcases List.mem_cons.1 hp with rfl | hp
    · refine ⟨fun q hq => List.mem_takeWhile_imp hq, ?_⟩
      have hne : symbols.dropWhile Symbol.blank ≠ [] := by rw [h]; simp
      have hb := List.head_dropWhile_not Symbol.blank hne
      simpa [h] using hb
    · exact ih.1 p hp

end CallLang
