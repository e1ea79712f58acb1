import CallLang.Proofs.Token.Values

/-!
# Lines and bytes before a place

A byte below 128 is a character by itself wherever it stands in a text: longer sequences have none, and a stray byte is
never one (`eq_char_of_decode`). So the line of a place can be counted in bytes (`line_past_symbols`), and a line feed
between two texts moves the places of the second one by the lines and the bytes of the first, and no column
(`past_feed`).
-/

namespace CallLang

/-! ## Bytes that are characters -/

namespace Utf8

/-- A sequence of more than one byte has no byte below 128. -/
theorem le_of_mem_encode {c : Char} {b : UInt8} (hc : 0x80 ≤ c.toNat) (hb : b ∈ encode c) : 0x80 ≤ b.toNat := by
  have hlt := toNat_lt c
  unfold encode at hb
  dsimp only at hb
  rw [if_neg (by omega)] at hb
  split at hb
  · simp only [List.mem_cons, List.not_mem_nil, or_false] at hb
    rcases hb with rfl | rfl <;> rw [toNat_toUInt8 (by omega)] <;> omega
  · split at hb
    · simp only [List.mem_cons, List.not_mem_nil, or_false] at hb
      rcases hb with rfl | rfl | rfl <;> rw [toNat_toUInt8 (by omega)] <;> omega
    · simp only [List.mem_cons, List.not_mem_nil, or_false] at hb
      rcases hb with rfl | rfl | rfl | rfl <;> rw [toNat_toUInt8 (by omega)] <;> omega

/-- A stray byte is not below 128. -/
theorem le_of_decode_stray {bytes rest : Bytes} {b : UInt8} (h : decode bytes = some (.stray b, rest)) :
    0x80 ≤ b.toNat := by
  cases bytes with
  | nil => cases h
  | cons a bytes =>
    by_cases ha : a < 0x80
    · simp only [decode, scan, if_pos ha] at h
      cases h
    · have ha : ¬ a.toNat < 0x80 := fun hlt => ha (UInt8.lt_iff_toNat_lt.2 hlt)
      simp only [decode] at h
      split at h
      · cases h
      · cases h
        omega

/-- A byte below 128 in a symbol is the whole symbol. -/
theorem eq_char_of_decode {bytes rest : Bytes} {r : Symbol} {b : UInt8} (h : decode bytes = some (r, rest))
    (hb : b ∈ r.bytes) (hlt : b.toNat < 0x80) : r = .char (Char.ofNat b.toNat) ∧ r.bytes = [b] := by
  cases r with
  | stray a =>
    have ha := le_of_decode_stray h
    rw [List.mem_singleton.1 hb] at hlt
    omega
  | char c =>
    by_cases hc : c.toNat < 0x80
    · rw [Symbol.bytes, encode_of_lt hc] at hb ⊢
      have he := List.mem_singleton.1 hb
      have hn : b.toNat = c.toNat := by rw [he, toNat_toUInt8 (by omega)]
      exact ⟨by rw [hn, Char.ofNat_toNat], by rw [he]⟩
    · have := le_of_mem_encode (by omega) hb
      omega

/-- A symbol has a line feed among its bytes if it is one. -/
theorem count_feed_bytes {bytes rest : Bytes} {r : Symbol} (h : decode bytes = some (r, rest)) :
    r.bytes.count 0x0A = if r.scalar = '\n' then 1 else 0 := by
  by_cases hb : 0x0A ∈ r.bytes
  · obtain ⟨hr, hbytes⟩ := eq_char_of_decode h hb (by decide)
    rw [hbytes, hr]
    rfl
  · rw [List.count_eq_zero_of_not_mem hb, if_neg]
    intro hs
    apply hb
    cases r with
    | stray b => exact absurd hs (by decide : replacement ≠ '\n')
    | char c =>
      have hc : c = '\n' := hs
      subst hc
      decide

/-- Line feeds are counted alike in symbols and in bytes. -/
theorem countP_feed_symbols (text : Bytes) :
    (symbols text).countP (·.scalar = '\n') = text.count 0x0A := by
  fun_induction symbols text with
  | case1 text h =>
    rw [decode_eq_none_iff.1 h]
    rfl
  | case2 text r rest h ih =>
    rw [List.countP_cons, ih, bytes_of_decode h, List.count_append, count_feed_bytes h, Nat.add_comm]
    simp only [decide_eq_true_eq]

end Utf8

/-! ## Places behind a line feed -/

namespace Position

/-- The place that is so many lines and bytes further on, in the same column. -/
def shift (lines bytes : Nat) (p : Position) : Position :=
  ⟨p.line + lines, p.column, p.offset + bytes⟩

theorem advance_shift (lines bytes : Nat) (p : Position) (r : Symbol) :
    (p.shift lines bytes).advance r = (p.advance r).shift lines bytes := by
  unfold advance shift
  split
  · simp only [mk.injEq, true_and]
    omega
  · simp only [mk.injEq, true_and]
    omega

theorem foldl_advance_shift (lines bytes : Nat) (p : Position) (symbols : List Symbol) :
    symbols.foldl advance (p.shift lines bytes) = (symbols.foldl advance p).shift lines bytes := by
  induction symbols generalizing p with
  | nil => rfl
  | cons r symbols ih => rw [List.foldl_cons, List.foldl_cons, advance_shift, ih]

/-- Behind a line feed, places are those of a text of its own, moved. -/
theorem past_feed (before rest : List Symbol) :
    past (before ++ .char '\n' :: rest) = (past rest).shift (past before).line ((Symbol.text before).length + 1) := by
  have hfeed : (past before).advance (.char '\n') =
      shift (past before).line ((Symbol.text before).length + 1) {} := by
    rw [← offset_past]
    show Position.mk _ _ _ = Position.mk _ _ _
    simp only [mk.injEq, true_and]
    exact ⟨Nat.add_comm _ _, (Nat.zero_add _).symm⟩
  rw [past, List.foldl_append, List.foldl_cons]
  show rest.foldl advance ((past before).advance (.char '\n')) = _
  rw [hfeed, foldl_advance_shift]
  rfl

theorem line_past (before : List Symbol) : (past before).line = 1 + before.countP (·.scalar = '\n') := by
  induction before using List.reverseRecOn with
  | nil => rfl
  | append_singleton before r ih =>
    rw [past_concat, List.countP_append, List.countP_singleton, advance]
    split
    · next hr => simp only [ih, hr, decide_true, if_true, Nat.add_assoc]
    · next hr => simp only [ih, hr, decide_false, Bool.false_eq_true, if_false, Nat.add_zero]

/-- The line behind a text is one more than the line feeds in it. -/
theorem line_past_symbols (text : Bytes) : (past (Utf8.symbols text)).line = 1 + text.count 0x0A := by
  rw [line_past, Utf8.countP_feed_symbols]

end Position

namespace Location

/-- The place that is so many lines and bytes further on, in the same column. -/
def shift (lines bytes : Nat) (l : Location) : Location :=
  { l with line := l.line + lines, offset := l.offset + bytes }

theorem ofPosition_shift (file : Bytes) (lines bytes : Nat) (p : Position) :
    ofPosition file (p.shift lines bytes) = (ofPosition file p).shift lines bytes := by
  simp [ofPosition, Position.shift, shift]

end Location

end CallLang
