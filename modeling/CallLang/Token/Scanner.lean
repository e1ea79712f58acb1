import CallLang.Source.Input
import CallLang.Text.Blank
import CallLang.Token

/-!
# Scanning

A scanner reads an input symbol by symbol and cuts it into tokens. It never rejects a character: what starts no token
becomes a token of its own, of kind `unknown`. A fault of the input ends the token it is met in; met between tokens, it
ends the run. The next run goes on with whatever the input brings then.

- `Scanner.token?` reads one token, `Scanner.run` all tokens up to a fault between tokens;
- `tokenize` scans a text that is there as a whole;
- `Scanner.runs` are several runs of one scanner, with all tokens so far and the first failure so far.
-/

namespace CallLang

/-! ## Character classes -/

/-- A decimal digit. -/
def isDigit (c : Char) : Bool :=
  '0' ≤ c && c ≤ '9'

/-- A character that may start a word: an ASCII letter or an underscore. -/
def isWordStart (c : Char) : Bool :=
  c == '_' || ('a' ≤ c && c ≤ 'z') || ('A' ≤ c && c ≤ 'Z')

/-- A character that may go on with a word. -/
def isWordPart (c : Char) : Bool :=
  isWordStart c || isDigit c

/-- The characters that are tokens by themselves. -/
def operator? (c : Char) : Option Kind :=
  match c with
  | '(' => some .openParen
  | ')' => some .closeParen
  | '{' => some .openBrace
  | '}' => some .closeBrace
  | ';' => some .semicolon
  | _ => none

/-- What a backslash and the given character stand for in a string. -/
def escape? (c : Char) : Option Char :=
  match c with
  | '"' => some '"'
  | '\\' => some '\\'
  | 'n' => some '\n'
  | 't' => some '\t'
  | 'r' => some '\r'
  | '0' => some '\x00'
  | _ => none

/-- The bytes of a list of characters. -/
def encoded (cs : List Char) : Bytes :=
  cs.flatMap Utf8.encode

/-- The kind of a word: a keyword, the name of a type, or an identifier. -/
def Kind.ofWord (word : Bytes) : Kind :=
  if word = ascii "import" then .importWord
  else if word = ascii "from" then .fromWord
  else if word = ascii "fn" then .fnWord
  else if word = ascii "void" then .typeName
  else .identifier

/-! ## The scanner -/

/-- A scanner between two symbols: what it reads, where it stands, and the first failure it met. -/
structure Scanner where
  file : Bytes
  input : Input
  position : Position := {}
  failure : Option Bytes := none
deriving DecidableEq, Repr

namespace Scanner

/-- Remembers a fault, unless it is the end of the input or not the first failure. -/
def note (s : Scanner) (fault : Fault) : Scanner :=
  match fault, s.failure with
  | .failed message, none => { s with failure := some message }
  | _, _ => s

/-- Looks at the next character; a fault is remembered. -/
def peek (s : Scanner) : Option Char × Scanner :=
  match s.input.peek with
  | (.ok r, input) => (some r.scalar, { s with input })
  | (.error fault, input) => (none, { s with input }.note fault)

/-- Takes the next character; a fault is remembered. -/
def next (s : Scanner) : Option Char × Scanner :=
  match s.input.next with
  | (.ok r, input) => (some r.scalar, { s with input, position := s.position.advance r })
  | (.error fault, input) => (none, { s with input }.note fault)

/-- The number of bytes the scanner has not taken yet. -/
def left (s : Scanner) : Nat :=
  s.input.ahead.length

@[simp] theorem left_note (s : Scanner) (fault : Fault) : (s.note fault).left = s.left := by
  unfold note
  split <;> rfl

@[simp] theorem left_peek (s : Scanner) : s.peek.2.left = s.left := by
  have h := Input.ahead_peek s.input
  unfold peek
  split
  · simp_all [left]
  · rw [left_note]; simp_all [left]

/-- Taking a character leaves fewer bytes. -/
theorem left_next {s t : Scanner} {c : Char} (h : s.next = (some c, t)) : t.left < s.left := by
  unfold next at h
  split at h
  · next hn => cases h; exact Input.ahead_next hn
  · cases h

/-- A fault leaves the bytes where they are. -/
theorem left_next_none {s t : Scanner} (h : s.next = (none, t)) : t.left = s.left := by
  unfold next at h
  split at h
  · cases h
  · next hn => cases h; rw [left_note]; simp [left, Input.ahead_next_error hn]

/-- What looking finds, taking then takes. -/
theorem next_of_peek {s t : Scanner} {c : Char} (h : s.peek = (some c, t)) : ∃ u, t.next = (some c, u) := by
  unfold peek at h
  split at h
  · next r _ hp =>
    cases h
    obtain ⟨k, hk⟩ := Input.next_of_peek hp
    exact ⟨{ s with input := k, position := s.position.advance r }, by unfold next; simp only [hk]⟩
  · cases h

/-- Takes the next character if `f` has a value for it, and leaves it where it is otherwise. -/
def accept {α : Type} (f : Char → Option α) (s : Scanner) : Option α × Scanner :=
  match s.peek with
  | (some c, s) =>
    match f c with
    | some a => (some a, s.next.2)
    | none => (none, s)
  | (none, s) => (none, s)

/-- A character that was accepted leaves fewer bytes. -/
theorem left_accept {α : Type} {f : Char → Option α} {s t : Scanner} {a : α} (h : s.accept f = (some a, t)) :
    t.left < s.left := by
  unfold accept at h
  split at h
  · next hp =>
    have hl := left_peek s
    rw [hp] at hl
    split at h
    · obtain ⟨u, hu⟩ := next_of_peek hp
      rw [hu] at h
      cases h
      rw [← hl]
      exact left_next hu
    · cases h
  · cases h

/-- A character that was not accepted is still there. -/
theorem left_accept_none {α : Type} {f : Char → Option α} {s t : Scanner} (h : s.accept f = (none, t)) :
    t.left = s.left := by
  have hl := left_peek s
  unfold accept at h
  split at h
  · next hp =>
    split at h
    · cases h
    · cases h; simpa [hp] using hl
  · next hp => cases h; simpa [hp] using hl

/-- Takes characters as long as they satisfy `p`. -/
def takeWhile (p : Char → Bool) (s : Scanner) : List Char × Scanner :=
  match _h : s.accept (Option.guard p) with
  | (some c, s') => let (cs, t) := takeWhile p s'; (c :: cs, t)
  | (none, s') => ([], s')
termination_by s.left
decreasing_by exact left_accept _h

/-- Takes the next character that is not blank, with the place it stands at. -/
def nextSolid (s : Scanner) : Option (Position × Char) × Scanner :=
  match _h : s.next with
  | (some c, s') => if isBlank c then nextSolid s' else (some (s.position, c), s')
  | (none, s') => (none, s')
termination_by s.left
decreasing_by exact left_next _h

/-- Takes the rest of a string up to its closing quote, or up to a fault, with escapes replaced by what they stand for.
A backslash before any other character stands for itself. -/
def stringBody (s : Scanner) : List Char × Scanner :=
  match _h : s.next with
  | (none, s') => ([], s')
  | (some c, s') =>
    if c = '"' then ([], s')
    else if c = '\\' then
      match _he : s'.accept escape? with
      | (some e, s'') => let (cs, t) := stringBody s''; (e :: cs, t)
      | (none, s'') => let (cs, t) := stringBody s''; (c :: cs, t)
    else let (cs, t) := stringBody s'; (c :: cs, t)
termination_by s.left
decreasing_by
  · exact Nat.lt_trans (left_accept _he) (left_next _h)
  · rw [left_accept_none _he]; exact left_next _h
  · exact left_next _h

/-! ## Tokens -/

/-- The kind and the value of a token whose first character `c` has been taken. -/
def lexeme (c : Char) (s : Scanner) : (Kind × Bytes) × Scanner :=
  match operator? c with
  | some kind => ((kind, encoded [c]), s)
  | none =>
    if c = '"' then
      let (body, t) := s.stringBody
      ((.string, encoded body), t)
    else if isDigit c then
      let (digits, t) := s.takeWhile isDigit
      let text := encoded (c :: digits)
      match Integer.read text with
      | .ok n => ((.number, signed n), t)
      | .error _ => ((.unknown, text), t)
    else if isWordStart c then
      let (part, t) := s.takeWhile isWordPart
      let word := encoded (c :: part)
      ((Kind.ofWord word, word), t)
    else ((.unknown, encoded [c]), s)

/-- Reads one token; there is none when a fault is met first. -/
def token? (s : Scanner) : Option Token × Scanner :=
  match s.nextSolid with
  | (none, t) => (none, t)
  | (some (start, c), t) =>
    let ((kind, value), u) := t.lexeme c
    (some ⟨kind, value, some (.ofPosition s.file start), (u.position.offset - start.offset : Nat)⟩, u)

theorem left_nextSolid {s t : Scanner} {start : Position} {c : Char} (h : s.nextSolid = (some (start, c), t)) :
    t.left < s.left := by
  fun_induction nextSolid s with
  | case1 s _ s' hn _ ih => exact Nat.lt_trans (ih h) (left_next hn)
  | case2 s _ s' hn => cases h; exact left_next hn
  | case3 => cases h

theorem left_takeWhile (p : Char → Bool) (s : Scanner) : (s.takeWhile p).2.left ≤ s.left := by
  fun_induction takeWhile p s with
  | case1 s c s' ha cs t _ ih => simp_all; exact Nat.le_of_lt (Nat.lt_of_le_of_lt ih (left_accept ha))
  | case2 s s' ha => exact Nat.le_of_eq (left_accept_none ha)

theorem left_stringBody (s : Scanner) : s.stringBody.2.left ≤ s.left := by
  fun_induction stringBody s with
  | case1 s t hn => exact Nat.le_of_eq (left_next_none hn)
  | case2 s t hn => exact Nat.le_of_lt (left_next hn)
  | case3 s s' _ s'' ha _ t ht hn _ ih =>
    have := left_accept ha
    have := left_next hn
    simp only [ht] at ih ⊢
    omega
  | case4 s s' s'' ha _ t ht hn _ ih =>
    have := left_accept_none ha
    have := left_next hn
    simp only [ht] at ih ⊢
    omega
  | case5 s c s' hn _ _ _ t ht ih =>
    have := left_next hn
    simp only [ht] at ih ⊢
    omega

theorem left_lexeme (c : Char) (s : Scanner) : (s.lexeme c).2.left ≤ s.left := by
  unfold lexeme
  split
  · exact Nat.le_refl _
  · split
    · exact left_stringBody s
    · split
      · have := left_takeWhile isDigit s
        dsimp only
        split <;> exact this
      · split
        · exact left_takeWhile isWordPart s
        · exact Nat.le_refl _

/-- A token takes at least one byte. -/
theorem left_token {s t : Scanner} {token : Token} (h : s.token? = (some token, t)) : t.left < s.left := by
  unfold token? at h
  split at h
  · cases h
  · next hs =>
    cases h
    exact Nat.lt_of_le_of_lt (left_lexeme _ _) (left_nextSolid hs)

/-- Reads tokens up to a fault between tokens. -/
def run (s : Scanner) : List Token × Scanner :=
  match _h : s.token? with
  | (none, t) => ([], t)
  | (some token, t) => let (tokens, u) := run t; (token :: tokens, u)
termination_by s.left
decreasing_by exact left_token _h

/-- What can be seen of a scanner after a run: all tokens so far, and the first failure so far. -/
structure Reading where
  tokens : List Token
  failure : Option Bytes
deriving DecidableEq, Repr

/-- The readings after each of `n` runs of one scanner, which has read `before` already. -/
def runs (before : List Token) (s : Scanner) : Nat → List Reading
  | 0 => []
  | n + 1 =>
    let (tokens, t) := s.run
    ⟨before ++ tokens, t.failure⟩ :: runs (before ++ tokens) t n

end Scanner

/-- A scanner at the start of what `coming` delivers. -/
def Scanner.ofDeliveries (file : Bytes) (coming : List Delivery) : Scanner where
  file := file
  input := { coming := coming }

/-- The tokens of a text. -/
def tokenize (file text : Bytes) : List Token :=
  (Scanner.run { file := file, input := .ofBytes text }).1

end CallLang
