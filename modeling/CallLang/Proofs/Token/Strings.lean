import CallLang.Proofs.Token.Spelling

/-!
# Strings, byte by byte

The scanner goes through a string by its symbols and takes an escape as a whole. Here it is said on bytes where a string
ends and what it stands for. A backslash is active if no active one stands before it (`endsActive`), the string ends at
the first quote that no active backslash stands before (`ClosesAt`), and what it stands for is read from left to right
(`unescape`). Quotes and backslashes are bytes that are characters, so the two ways agree.

- `stringInside`: what stands between the quotes of a string;
- `closesAt_inside`: no quote in it closes the string, and the one behind it does;
- `stringEnds_splitString`: so the scanner takes the string as far as it goes;
- `unescape_inside`: what it stands for.
-/

namespace CallLang

/-- The byte of a quotation mark. -/
def quoteByte : UInt8 := 0x22

/-- The byte of a backslash. -/
def backslashByte : UInt8 := 0x5C

/-- Some bytes end in an active backslash, one that no active backslash stands before. -/
def endsActive (bytes : Bytes) : Bool :=
  bytes.foldl (fun active b => b == backslashByte && !active) false

/-- A quote in what follows an opening quote closes the string: no active backslash stands before it. -/
def ClosesAt (after : Bytes) (k : Nat) : Prop :=
  after[k]? = some quoteByte ∧ endsActive (after.take k) = false

/-- How far a string goes in the bytes behind its opening quote: up to the first quote that closes it, or to their end
if none does. The bytes of the string come first, then the string with its stray bytes replaced, and what stands between
the quotes there. -/
inductive StringEnds (after : Bytes) : Bytes → Bytes → Bytes → Prop where
  | closed {k : Nat} {body : Bytes} (hc : ClosesAt after k) (hf : ∀ j < k, ¬ ClosesAt after j) :
      StringEnds after (quoteByte :: after.take (k + 1)) (quoteByte :: (body ++ [quoteByte])) body
  | unclosed {body : Bytes} (hn : ∀ k, ¬ ClosesAt after k) :
      StringEnds after (quoteByte :: after) (quoteByte :: body) body

/-- What a backslash and the given byte stand for. -/
def unescapedByte? : UInt8 → Option UInt8
  | 0x22 => some 0x22
  | 0x5C => some 0x5C
  | 0x6E => some 0x0A
  | 0x74 => some 0x09
  | 0x72 => some 0x0D
  | 0x30 => some 0x00
  | _ => none

/-- Replaces escapes by what they stand for, from left to right. All other backslashes are kept. -/
def unescape : Bytes → Bytes
  | [] => []
  | [b] => [b]
  | b :: e :: rest =>
    if b = backslashByte then
      match unescapedByte? e with
      | some x => x :: unescape rest
      | none => b :: unescape (e :: rest)
    else b :: unescape (e :: rest)

/-- A text with each stray byte replaced by the character that stands for it. -/
def mended (text : Bytes) : Bytes :=
  encoded ((Utf8.symbols text).map Symbol.scalar)

/-- What stands between the quotes of a string, from behind the opening quote on. -/
def stringInside : List Symbol → List Symbol
  | [] => []
  | [r] => if r.scalar = '"' then [] else [r]
  | r :: e :: rest =>
    if r.scalar = '"' then []
    else if r.scalar = '\\' ∧ (escape? e.scalar).isSome then r :: e :: stringInside rest
    else r :: stringInside (e :: rest)

/-! ## Symbols that are bytes -/

namespace Symbol

variable {r : Symbol} {rest : List Symbol} {b : UInt8}

/-- A symbol that is read as an ASCII character is its byte. -/
theorem eq_char_of_scalar {c : Char} (h : r.scalar = c) (hc : c.toNat < 0x80) :
    r = .char c ∧ r.bytes = [c.toNat.toUInt8] := by
  cases r with
  | char c' =>
    obtain rfl : c' = c := h
    exact ⟨rfl, encode_of_lt hc⟩
  | stray b =>
    rw [← show Utf8.replacement = c from h] at hc
    exact absurd hc (by decide)

/-- A byte below 128 in a text is a character. -/
theorem scalar_of_mem_bytes (hg : Genuine (r :: rest)) (hb : b ∈ r.bytes) (hlt : b.toNat < 0x80) :
    r.scalar = Char.ofNat b.toNat := by
  rw [(Utf8.eq_char_of_decode (genuine_cons.1 hg).1 hb hlt).1]
  rfl

theorem not_mem_bytes (hg : Genuine (r :: rest)) (hlt : b.toNat < 0x80) (h : r.scalar ≠ Char.ofNat b.toNat) :
    b ∉ r.bytes :=
  fun hb => h (scalar_of_mem_bytes hg hb hlt)

end Symbol

/-- A quote and a backslash are changed by a backslash. -/
theorem ne_of_escape_eq_none {c : Char} (h : escape? c = none) : c ≠ '"' ∧ c ≠ '\\' := by
  constructor
  · rintro rfl
    cases h
  · rintro rfl
    cases h

/-- What a backslash changes is a single byte. -/
theorem exists_byte_of_escape {r : Symbol} (h : (escape? r.scalar).isSome = true) : ∃ b, r.bytes = [b] := by
  obtain ⟨c, hc⟩ := Option.isSome_iff_exists.1 h
  refine ⟨_, (Symbol.eq_char_of_scalar rfl ?_).2⟩
  unfold escape? at hc
  split at hc <;> cases hc <;> next he => rw [he]; decide

/-- A byte below 128 in the sequence of a character is the character. -/
theorem eq_of_mem_encode {c : Char} {b : UInt8} (hb : b ∈ Utf8.encode c) (hlt : b.toNat < 0x80) :
    c = Char.ofNat b.toNat := by
  have hg : Symbol.Genuine [.char c] := by
    rw [Symbol.Genuine, Symbol.text_cons]
    exact (Utf8.symbols_encode_append c []).trans (by rw [Utf8.symbols_nil])
  exact Symbol.scalar_of_mem_bytes hg hb hlt

/-! ## Where strings end -/

section Ends

variable {bytes more : Bytes} {k : Nat}

theorem endsActive_append (h : endsActive bytes = false) : endsActive (bytes ++ more) = endsActive more := by
  rw [endsActive, List.foldl_append]
  rw [endsActive] at h
  rw [h]
  rfl

/-- Bytes without a backslash do not end in one. -/
theorem endsActive_of_not_mem (h : backslashByte ∉ bytes) : endsActive bytes = false := by
  rcases List.eq_nil_or_concat bytes with rfl | ⟨front, b, rfl⟩
  · rfl
  · have hb : b ≠ backslashByte := by
      rintro rfl
      simp at h
    rw [endsActive, List.concat_eq_append, List.foldl_append]
    simp [hb]

/-- Bytes that do not end in an active backslash do not change what closes the string behind them. -/
theorem closesAt_append (h : endsActive bytes = false) :
    ClosesAt (bytes ++ more) (bytes.length + k) ↔ ClosesAt more k := by
  rw [ClosesAt, ClosesAt, List.getElem?_append_right (by omega), Nat.add_sub_cancel_left, List.take_length_add_append,
    endsActive_append h]

theorem not_closesAt_of_not_mem (h : quoteByte ∉ bytes) (hk : k < bytes.length) : ¬ ClosesAt (bytes ++ more) k := by
  rintro ⟨hq, _⟩
  rw [List.getElem?_append_left hk] at hq
  exact h (List.mem_of_getElem? hq)

/-- A backslash before a byte that it does not change does not matter. -/
theorem closesAt_backslash {b : UInt8} (hq : b ≠ quoteByte) (hb : b ≠ backslashByte) :
    ClosesAt (backslashByte :: b :: more) (k + 1) ↔ ClosesAt (b :: more) k := by
  have hnot : (b == backslashByte) = false := beq_eq_false_iff_ne.2 hb
  cases k with
  | zero => simp [ClosesAt, hq]
  | succ k => simp [ClosesAt, endsActive, hnot]

/-- Bytes with no closing quote in them may stand before a string if they do not change what closes it. -/
theorem firstClosing_append {n : Nat} {closed : Prop} (hn : ∀ k < bytes.length, ¬ ClosesAt (bytes ++ more) k)
    (hs : ∀ k, ClosesAt (bytes ++ more) (bytes.length + k) ↔ ClosesAt more k)
    (h : (∀ k < n, ¬ ClosesAt more k) ∧ (closed → ClosesAt more n)) :
    (∀ k < bytes.length + n, ¬ ClosesAt (bytes ++ more) k) ∧
      (closed → ClosesAt (bytes ++ more) (bytes.length + n)) := by
  refine ⟨fun k hk => ?_, fun hc => (hs n).2 (h.2 hc)⟩
  by_cases hlt : k < bytes.length
  · exact hn k hlt
  · obtain ⟨j, rfl⟩ := Nat.exists_eq_add_of_le (Nat.le_of_not_lt hlt)
    rw [hs]
    exact h.1 j (by omega)

end Ends

/-! ## What stands between the quotes -/

/-- What does not close the string at once is inside it. -/
theorem stringInside_cons {e : Symbol} (h : e.scalar ≠ '"') (rest : List Symbol) :
    ∃ more, stringInside (e :: rest) = e :: more := by
  cases rest with
  | nil => exact ⟨[], by simp [stringInside, h]⟩
  | cons f rest =>
    rw [stringInside, if_neg h]
    split
    · exact ⟨_, rfl⟩
    · exact ⟨_, rfl⟩

/-- A string is what stands inside it and its closing quote, or without one all that follows. -/
theorem splitString_eq_inside (symbols : List Symbol) :
    (closes symbols = true → (splitString symbols).1 = stringInside symbols ++ [.char '"']) ∧
    (closes symbols = false → splitString symbols = (stringInside symbols, [])) := by
  have hquote {r : Symbol} (h : r.scalar = '"') : r = .char '"' := (Symbol.eq_char_of_scalar h (by decide)).1
  fun_induction stringInside symbols with
  | case1 => exact ⟨nofun, fun _ => rfl⟩
  | case2 r hq => simp [closes, splitString, hquote hq, Symbol.scalar]
  | case3 r hq => simp [closes, splitString, hq]
  | case4 r e rest hq => simp [closes, splitString, hquote hq, Symbol.scalar]
  | case5 r e rest hq he ih =>
    obtain ⟨hclosed, hopen⟩ := ih
    rw [closes, if_neg hq, if_pos he, splitString, if_neg hq, if_pos he]
    exact ⟨fun hc => by rw [hclosed hc]; rfl, fun hc => by rw [hopen hc]⟩
  | case6 r e rest hq he ih =>
    obtain ⟨hclosed, hopen⟩ := ih
    rw [closes, if_neg hq, if_neg he, splitString, if_neg hq, if_neg he]
    exact ⟨fun hc => by rw [hclosed hc]; rfl, fun hc => by rw [hopen hc]⟩

/-- No quote inside a string closes it, and the one behind it does. -/
theorem closesAt_inside {symbols : List Symbol} (hg : Symbol.Genuine symbols) :
    (∀ k < (Symbol.text (stringInside symbols)).length, ¬ ClosesAt (Symbol.text symbols) k) ∧
    (closes symbols = true → ClosesAt (Symbol.text symbols) (Symbol.text (stringInside symbols)).length) := by
  have hquote {r : Symbol} (h : r.scalar = '"') : r.bytes = [quoteByte] := (Symbol.eq_char_of_scalar h (by decide)).2
  have hbackslash {r : Symbol} (h : r.scalar = '\\') : r.bytes = [backslashByte] :=
    (Symbol.eq_char_of_scalar h (by decide)).2
  fun_induction stringInside symbols with
  | case1 => exact ⟨fun k hk => absurd hk (Nat.not_lt_zero k), fun hc => absurd hc (by decide)⟩
  | case2 r hq =>
    refine ⟨fun k hk => absurd hk (Nat.not_lt_zero k), fun _ => ?_⟩
    rw [Symbol.text_cons, hquote hq]
    exact ⟨rfl, rfl⟩
  | case3 r hq =>
    refine ⟨fun k hk => not_closesAt_of_not_mem (Symbol.not_mem_bytes hg (by decide) hq) (by simpa using hk), ?_⟩
    intro hc
    exact absurd (beq_iff_eq.1 hc) hq
  | case4 r e rest hq =>
    refine ⟨fun k hk => absurd hk (Nat.not_lt_zero k), fun _ => ?_⟩
    rw [Symbol.text_cons, hquote hq]
    exact ⟨rfl, rfl⟩
  | case5 r e rest hq he ih =>
    have hrest := (Symbol.genuine_cons.1 (Symbol.genuine_cons.1 hg).2).2
    obtain ⟨x, hx⟩ := exists_byte_of_escape he.2
    have hfront (more : Bytes) : r.bytes ++ (e.bytes ++ more) = [backslashByte, x] ++ more := by
      rw [hbackslash he.1, hx]
      rfl
    simp only [closes, if_neg hq, if_pos he, Symbol.text_cons, hfront, List.length_append]
    refine firstClosing_append (fun k hk => ?_) (fun k => closesAt_append ?_) (ih hrest)
    · -- the first byte is no quote, and before the second one stands the active backslash
      obtain rfl | rfl : k = 0 ∨ k = 1 := by
        simp only [List.length_cons, List.length_nil] at hk
        omega
      · exact fun h => absurd (Option.some.inj h.1) (by decide)
      · exact fun h => absurd h.2 (by simp [endsActive])
    · simp [endsActive]
  | case6 r e rest hq he ih =>
    obtain ⟨_, hrest⟩ := Symbol.genuine_cons.1 hg
    rw [closes, if_neg hq, if_neg he, Symbol.text_cons, Symbol.text_cons, List.length_append]
    have hnone : quoteByte ∉ r.bytes := Symbol.not_mem_bytes hg (by decide) hq
    refine firstClosing_append (fun k => not_closesAt_of_not_mem hnone) (fun k => ?_) (ih hrest)
    by_cases hb : r.scalar = '\\'
    · -- the backslash changes nothing, so the byte behind it is no quote and no backslash
      have hplain : escape? e.scalar = none := by simpa [hb] using he
      obtain ⟨hnq, hnb⟩ := ne_of_escape_eq_none hplain
      obtain ⟨b, bytes, hbytes⟩ := List.exists_cons_of_ne_nil e.bytes_ne_nil
      have hmem : b ∈ e.bytes := by rw [hbytes]; exact List.mem_cons_self
      have hbq : quoteByte ∉ e.bytes := Symbol.not_mem_bytes hrest (by decide) hnq
      have hbb : backslashByte ∉ e.bytes := Symbol.not_mem_bytes hrest (by decide) hnb
      rw [hbackslash hb, Symbol.text_cons, hbytes, List.length_singleton, Nat.add_comm]
      exact closesAt_backslash (ne_of_mem_of_not_mem hmem hbq) (ne_of_mem_of_not_mem hmem hbb)
    · exact closesAt_append (endsActive_of_not_mem (Symbol.not_mem_bytes hg (by decide) hb))

/-- The scanner takes a string as far as it goes. -/
theorem stringEnds_splitString {symbols tail rest : List Symbol} (hg : Symbol.Genuine symbols)
    (h : splitString symbols = (tail, rest)) :
    StringEnds (Symbol.text symbols) (quoteByte :: Symbol.text tail) (quoteByte :: encoded (tail.map Symbol.scalar))
      (encoded ((stringInside symbols).map Symbol.scalar)) := by
  obtain ⟨hfirst, hcloses⟩ := closesAt_inside hg
  obtain ⟨hclosed, hopen⟩ := splitString_eq_inside symbols
  have hsymbols : tail ++ rest = symbols := by
    have happend := splitString_append symbols
    rwa [h] at happend
  rw [h] at hclosed hopen
  generalize stringInside symbols = inside at hfirst hcloses hclosed hopen
  cases hc : closes symbols with
  | true =>
    have htail : tail = inside ++ [.char '"'] := hclosed hc
    have htext : Symbol.text tail = Symbol.text inside ++ [quoteByte] := by
      rw [htail, Symbol.text_append]
      rfl
    have htake : (Symbol.text symbols).take ((Symbol.text inside).length + 1) = Symbol.text tail := by
      rw [← hsymbols, Symbol.text_append]
      exact List.take_left' (by rw [htext, List.length_append]; rfl)
    have hmended : encoded (tail.map Symbol.scalar) = encoded (inside.map Symbol.scalar) ++ [quoteByte] := by
      rw [htail, List.map_append, encoded, List.flatMap_append]
      rfl
    rw [hmended, ← htake]
    exact .closed (hcloses hc) hfirst
  | false =>
    obtain ⟨rfl, rfl⟩ := Prod.mk.inj (hopen hc)
    rw [List.append_nil] at hsymbols
    subst hsymbols
    refine .unclosed fun k hk => ?_
    exact hfirst k (List.getElem?_eq_some_iff.1 hk.1).1 hk

/-! ## What strings stand for -/

theorem unescape_cons_of_ne {b : UInt8} (h : b ≠ backslashByte) (rest : Bytes) :
    unescape (b :: rest) = b :: unescape rest := by
  cases rest <;> simp [unescape, h]

/-- Bytes without a backslash stand for themselves. -/
theorem unescape_append {bytes : Bytes} (h : backslashByte ∉ bytes) (more : Bytes) :
    unescape (bytes ++ more) = bytes ++ unescape more := by
  induction bytes with
  | nil => rfl
  | cons b bytes ih =>
    rw [List.mem_cons, not_or] at h
    rw [List.cons_append, unescape_cons_of_ne (Ne.symm h.1), ih h.2]
    rfl

theorem unescape_escape {e c : Char} (h : escape? e = some c) (more : Bytes) :
    unescape (backslashByte :: (Utf8.encode e ++ more)) = Utf8.encode c ++ unescape more := by
  unfold escape? at h
  split at h <;> cases h <;> rfl

theorem unescape_backslash {e : Char} (h : escape? e = none) (more : Bytes) :
    unescape (backslashByte :: (Utf8.encode e ++ more)) = backslashByte :: unescape (Utf8.encode e ++ more) := by
  obtain ⟨b, bytes, hb⟩ := List.exists_cons_of_ne_nil (Utf8.encode_ne_nil e)
  have hnone : unescapedByte? b = none := by
    have he (hlt : b.toNat < 0x80) : e = Char.ofNat b.toNat :=
      eq_of_mem_encode (by rw [hb]; exact List.mem_cons_self) hlt
    unfold unescapedByte?
    split
    all_goals first
      | rfl
      | cases he (by decide); cases h
  rw [hb, List.cons_append, unescape, if_pos rfl, hnone]

/-- What stands inside a string is unescaped to what the string stands for. -/
theorem unescape_inside (symbols : List Symbol) :
    unescape (encoded ((stringInside symbols).map Symbol.scalar)) = encoded (stringValue symbols) := by
  have hcons (c : Char) (cs : List Char) : encoded (c :: cs) = Utf8.encode c ++ encoded cs := rfl
  have hplain {c : Char} (h : c ≠ '\\') (more : Bytes) :
      unescape (Utf8.encode c ++ more) = Utf8.encode c ++ unescape more :=
    unescape_append (fun hb => h (eq_of_mem_encode hb (by decide))) more
  fun_induction stringInside symbols with
  | case1 => rfl
  | case2 r hq => simp [stringValue, hq, encoded, unescape]
  | case3 r hq =>
    rw [stringValue, if_neg hq, List.map_cons, List.map_nil, hcons]
    by_cases hb : r.scalar = '\\'
    · rw [hb]
      rfl
    · exact hplain hb []
  | case4 r e rest hq => simp [stringValue, hq, encoded, unescape]
  | case5 r e rest hq he ih =>
    obtain ⟨c, hc⟩ := Option.isSome_iff_exists.1 he.2
    have hvalue : stringValue (r :: e :: rest) = c :: stringValue rest := by simp [stringValue, he.1, hc]
    rw [hvalue, List.map_cons, List.map_cons, hcons, hcons, hcons, he.1, ← ih]
    exact unescape_escape hc _
  | case6 r e rest hq he ih =>
    rw [List.map_cons, hcons]
    by_cases hb : r.scalar = '\\'
    · have hnone : escape? e.scalar = none := by simpa [hb] using he
      have hvalue : stringValue (r :: e :: rest) = '\\' :: stringValue (e :: rest) := by simp [stringValue, hb, hnone]
      obtain ⟨more, hmore⟩ := stringInside_cons (ne_of_escape_eq_none hnone).1 rest
      rw [hvalue, hcons, ← ih, hb, hmore, List.map_cons, hcons]
      exact unescape_backslash hnone _
    · have hvalue : stringValue (r :: e :: rest) = r.scalar :: stringValue (e :: rest) := by simp [stringValue, hq, hb]
      rw [hvalue, hcons, ← ih]
      exact hplain hb _

end CallLang
