import CallLang.Text.Bytes

/-!
# Symbols of a byte string

A byte string is cut from the left into symbols. A symbol is a character, where its whole UTF-8 sequence stands, or
else a single stray byte that belongs to no well-formed sequence. Every byte string has exactly one such cut.

- `scan` looks at the head of a byte string: a character with what follows it, a sequence that cannot be completed, or
  one that more bytes might complete;
- `decode` takes one symbol off and shortens the text (`length_decode`), `symbols` takes all of them off;
- `encode` is the UTF-8 sequence of a character.
-/

namespace CallLang

/-- One unit of text: a character, or a byte that is part of none. -/
inductive Symbol where
  | char (c : Char)
  | stray (b : UInt8)
deriving DecidableEq, Repr

namespace Utf8

/-- The character that stands for a byte which is part of none. -/
def replacement : Char := '\uFFFD'

/-- The UTF-8 sequence of a character. -/
def encode (c : Char) : Bytes :=
  let n := c.toNat
  if n < 0x80 then [n.toUInt8]
  else if n < 0x800 then [(0xC0 + n / 64).toUInt8, (0x80 + n % 64).toUInt8]
  else if n < 0x10000 then
    [(0xE0 + n / 4096).toUInt8, (0x80 + n / 64 % 64).toUInt8, (0x80 + n % 64).toUInt8]
  else
    [(0xF0 + n / 262144).toUInt8, (0x80 + n / 4096 % 64).toUInt8, (0x80 + n / 64 % 64).toUInt8,
      (0x80 + n % 64).toUInt8]

/-- What the head of a byte string is. -/
inductive Scan where
  /-- The whole sequence of `c`, then `rest`. -/
  | whole (c : Char) (rest : Bytes)
  /-- No sequence starts like this. -/
  | malformed
  /-- Nothing yet, or the beginning of a longer sequence. -/
  | unfinished
deriving DecidableEq, Repr

/-- What a leading byte announces: how many bytes follow it, its share of the code point, and the interval in which
the byte after it has to lie. Later bytes always lie between `0x80` and `0xBF`. -/
structure Lead where
  follow : Nat
  share : Nat
  low : UInt8
  high : UInt8

/-- The leading bytes of sequences longer than one byte. Overlong forms, surrogates and code points above `0x10FFFF`
are kept out by the interval of the second byte. -/
def lead? (a : UInt8) : Option Lead :=
  if a < 0xC2 then none
  else if a < 0xE0 then some ⟨1, a.toNat - 0xC0, 0x80, 0xBF⟩
  else if a = 0xE0 then some ⟨2, 0, 0xA0, 0xBF⟩
  else if a = 0xED then some ⟨2, 0xD, 0x80, 0x9F⟩
  else if a < 0xF0 then some ⟨2, a.toNat - 0xE0, 0x80, 0xBF⟩
  else if a = 0xF0 then some ⟨3, 0, 0x90, 0xBF⟩
  else if a < 0xF4 then some ⟨3, a.toNat - 0xF0, 0x80, 0xBF⟩
  else if a = 0xF4 then some ⟨3, 4, 0x80, 0x8F⟩
  else none

/-- Reads the bytes that are still owed, the first of them between `low` and `high`; `n` is the code point so far. -/
def continued : (owed : Nat) → (low high : UInt8) → (n : Nat) → Bytes → Scan
  | 0, _, _, n, rest => .whole (Char.ofNat n) rest
  | _ + 1, _, _, _, [] => .unfinished
  | owed + 1, low, high, n, b :: rest =>
    if low ≤ b ∧ b ≤ high then continued owed 0x80 0xBF (n * 64 + (b.toNat - 0x80)) rest else .malformed

/-- Looks at the head of a byte string. -/
def scan : Bytes → Scan
  | [] => .unfinished
  | a :: rest =>
    if a < 0x80 then .whole (Char.ofNat a.toNat) rest
    else match lead? a with
      | none => .malformed
      | some l => continued l.follow l.low l.high l.share rest

/-- More bytes cannot change what the head of the byte string is. -/
def settled (bytes : Bytes) : Bool :=
  match scan bytes with
  | .unfinished => false
  | _ => true

/-- Takes one symbol off a byte string. -/
def decode : Bytes → Option (Symbol × Bytes)
  | [] => none
  | b :: rest =>
    match scan (b :: rest) with
    | .whole c after => some (.char c, after)
    | _ => some (.stray b, rest)

theorem length_continued {owed n : Nat} {low high : UInt8} {bytes rest : Bytes} {c : Char}
    (h : continued owed low high n bytes = .whole c rest) : rest.length + owed = bytes.length := by
  fun_induction continued owed low high n bytes with
  | case1 => cases h; rfl
  | case2 => cases h
  | case3 owed low high n b bytes _ ih => simp [← ih h]; omega
  | case4 => cases h

theorem length_scan {bytes rest : Bytes} {c : Char} (h : scan bytes = .whole c rest) :
    rest.length < bytes.length := by
  unfold scan at h
  split at h
  · cases h
  · split at h
    · cases h; simp
    · split at h
      · cases h
      · have := length_continued h
        simp; omega

theorem length_decode {bytes rest : Bytes} {r : Symbol} (h : decode bytes = some (r, rest)) :
    rest.length < bytes.length := by
  unfold decode at h
  split at h
  · cases h
  · split at h
    · next hs => cases h; exact length_scan hs
    · cases h; simp

/-- Only the empty byte string has no symbol. -/
theorem decode_eq_none_iff {bytes : Bytes} : decode bytes = none ↔ bytes = [] := by
  unfold decode
  split
  · simp
  · split <;> simp

/-- The symbols of a byte string, from left to right. -/
def symbols (bytes : Bytes) : List Symbol :=
  match _h : decode bytes with
  | none => []
  | some (r, rest) => r :: symbols rest
termination_by bytes.length
decreasing_by exact length_decode _h

/-- The bytes form UTF-8 sequences and nothing else. -/
def valid (bytes : Bytes) : Bool :=
  (symbols bytes).all fun
    | .char _ => true
    | .stray _ => false

end Utf8

namespace Symbol

/-- The character a symbol counts as; stray bytes all count as the replacement character. -/
def scalar : Symbol → Char
  | .char c => c
  | .stray _ => Utf8.replacement

/-- The bytes a symbol was cut from. -/
def bytes : Symbol → Bytes
  | .char c => Utf8.encode c
  | .stray b => [b]

/-- The number of bytes a symbol was cut from. -/
def width (r : Symbol) : Nat :=
  r.bytes.length

end Symbol

end CallLang
