import CallLang.Proofs.Token.Cut

/-!
# Symbols that stay when others follow

A stray byte may be the beginning of a sequence, so the symbol that it is depends on the bytes behind it. A blank ends
this: no sequence reaches into a character that follows it (`scan_of_append`). So symbols that are cut from their bytes
again (`Genuine`) are still so with something else behind them, as long as that is the same up to a blank or up to the
end (`SameUntilBlank`, `Genuine.append_of_same`).
-/

namespace CallLang

namespace Utf8

/-! ## Sequences end before a character -/

/-- A byte that is not in the middle of a sequence. -/
def Leading (b : UInt8) : Prop :=
  b.toNat < 0x80 ∨ 0xBF < b.toNat

theorem leading_of_head_encode (c : Char) : ∀ b ∈ (encode c).head?, Leading b := by
  intro b hb
  have hc := toNat_lt c
  unfold encode at hb
  dsimp only at hb
  split at hb
  · next h =>
    simp only [List.head?_cons, Option.mem_some_iff] at hb
    rw [← hb]
    exact .inl (by rw [toNat_toUInt8 (by omega)]; omega)
  · split at hb
    · next h =>
      simp only [List.head?_cons, Option.mem_some_iff] at hb
      rw [← hb]
      exact .inr (by rw [toNat_toUInt8 (by omega)]; omega)
    · split at hb
      · next h =>
        simp only [List.head?_cons, Option.mem_some_iff] at hb
        rw [← hb]
        exact .inr (by rw [toNat_toUInt8 (by omega)]; omega)
      · simp only [List.head?_cons, Option.mem_some_iff] at hb
        rw [← hb]
        exact .inr (by rw [toNat_toUInt8 (by omega)]; omega)

theorem lead_bounds {a : UInt8} {l : Lead} (h : lead? a = some l) : 0x80 ≤ l.low.toNat ∧ l.high.toNat ≤ 0xBF := by
  unfold lead? at h
  split at h
  · cases h
  repeat' split at h
  all_goals
    cases h <;> simp only [UInt8.reduceToNat] <;> decide

theorem continued_of_append {owed n : Nat} {low high : UInt8} {bytes more rest : Bytes} {c : Char}
    (hlow : 0x80 ≤ low.toNat) (hhigh : high.toNat ≤ 0xBF) (hm : ∀ b ∈ more.head?, Leading b)
    (h : continued owed low high n (bytes ++ more) = .whole c rest) :
    ∃ rest', continued owed low high n bytes = .whole c rest' := by
  induction owed generalizing bytes low high n with
  | zero =>
    obtain ⟨rfl, _⟩ := continued_zero.1 h
    exact ⟨bytes, rfl⟩
  | succ owed ih =>
    obtain ⟨b, later, he, hb₁, hb₂, h⟩ := continued_eq_whole_iff.1 h
    cases bytes with
    | nil =>
      rw [List.nil_append] at he
      have hlead : Leading b := hm b (by simp [he])
      rcases hlead with hl | hl <;> omega
    | cons a bytes =>
      rw [List.cons_append] at he
      obtain ⟨rfl, rfl⟩ := List.cons.inj he
      obtain ⟨rest', hr⟩ := ih (by decide) (by decide) h
      exact ⟨rest', continued_eq_whole_iff.2 ⟨a, bytes, rfl, hb₁, hb₂, hr⟩⟩

/-- A character that is found in front of a leading byte lies before it. -/
theorem scan_of_append {bytes more rest : Bytes} {c : Char} (hb : bytes ≠ []) (hm : ∀ b ∈ more.head?, Leading b)
    (h : scan (bytes ++ more) = .whole c rest) : ∃ rest', scan bytes = .whole c rest' := by
  cases bytes with
  | nil => exact absurd rfl hb
  | cons a bytes =>
    simp only [scan, List.cons_append] at h ⊢
    split at h
    · next ha =>
      cases h
      exact ⟨bytes, by rw [if_pos ha]⟩
    · next ha =>
      rw [if_neg ha]
      split at h
      · cases h
      · next hl =>
        obtain ⟨h₁, h₂⟩ := lead_bounds hl
        exact continued_of_append h₁ h₂ hm h

end Utf8

namespace Symbol

/-! ## What follows a symbol -/

/-- Symbols that are cut from their bytes again. -/
def Genuine (symbols : List Symbol) : Prop :=
  Utf8.symbols (text symbols) = symbols

/-- The second list begins as the first one does, up to a blank in it or to its end. -/
def SameUntilBlank (a b : List Symbol) : Prop :=
  ∃ front rest rest', a = front ++ rest ∧ b = front ++ rest' ∧ ∀ r ∈ rest'.head?, r.blank = true

variable {r : Symbol} {a b : List Symbol}

theorem text_eq_nil_iff : text a = [] ↔ a = [] := by
  cases a with
  | nil => simp
  | cons r a => simp [r.bytes_ne_nil]

theorem genuine_nil : Genuine [] :=
  Utf8.symbols_nil

theorem genuine_symbols (bytes : Bytes) : Genuine (Utf8.symbols bytes) := by
  rw [Genuine, text, Utf8.flatMap_bytes_symbols]

theorem genuine_cons : Genuine (r :: a) ↔ Utf8.decode (text (r :: a)) = some (r, text a) ∧ Genuine a := by
  constructor
  · intro h
    obtain ⟨later, hd, hl⟩ := Utf8.decode_of_symbols h
    have hbytes := Utf8.bytes_of_decode hd
    rw [text_cons] at hbytes
    have he : text a = later := List.append_cancel_left hbytes
    rw [Genuine, he]
    exact ⟨hd, hl⟩
  · rintro ⟨hd, ha⟩
    rw [Genuine, Utf8.symbols_of_decode hd, ha]

theorem Genuine.of_append (h : Genuine (a ++ b)) : Genuine b := by
  induction a with
  | nil => exact h
  | cons r a ih => exact ih (genuine_cons.1 h).2

/-- Blanks are characters, and a character is cut off whatever follows. -/
theorem genuine_blank_append (h : ∀ r ∈ a, r.blank = true) : Genuine (a ++ b) ↔ Genuine b := by
  have hs := symbols_blank_append h (text b)
  constructor
  · exact Genuine.of_append
  · intro hb
    rw [Genuine, text_append]
    exact hs.trans (by rw [hb])

theorem genuine_of_blank (h : ∀ r ∈ a, r.blank = true) : Genuine a := by
  have ha := (genuine_blank_append h).2 genuine_nil
  rwa [List.append_nil] at ha

namespace SameUntilBlank

theorem of_blank (a : List Symbol) (h : ∀ r ∈ b.head?, r.blank = true) : SameUntilBlank a b :=
  ⟨[], a, b, rfl, rfl, h⟩

theorem append_left (w : List Symbol) (h : SameUntilBlank a b) : SameUntilBlank (w ++ a) (w ++ b) := by
  obtain ⟨front, rest, rest', rfl, rfl, hr⟩ := h
  exact ⟨w ++ front, rest, rest', by simp, by simp, hr⟩

/-- The first symbols are the same, or the second one is a blank. -/
theorem of_mem_head (h : SameUntilBlank a b) (hr : r ∈ b.head?) : r ∈ a.head? ∨ r.blank = true := by
  obtain ⟨front, rest, rest', rfl, rfl, hb⟩ := h
  cases front with
  | nil => exact .inr (hb r hr)
  | cons q front => exact .inl hr

end SameUntilBlank

theorem leading_of_head_text (h : ∀ r ∈ a.head?, r.blank = true) : ∀ x ∈ (text a).head?, Utf8.Leading x := by
  cases a with
  | nil => simp
  | cons r a =>
    have hr := h r (by simp)
    cases r with
    | stray x => simp [blank] at hr
    | char c =>
      intro x hx
      obtain ⟨first, more, he⟩ := List.exists_cons_of_ne_nil (Utf8.encode_ne_nil c)
      refine Utf8.leading_of_head_encode c x ?_
      rw [text_cons, bytes, he] at hx
      rw [he]
      exact hx

/-- The first symbol of a text stays when what follows is changed behind a blank. -/
theorem decode_of_same (h : Utf8.decode (text (r :: a)) = some (r, text a)) (hs : SameUntilBlank a b) :
    Utf8.decode (text (r :: b)) = some (r, text b) := by
  cases r with
  | char c =>
    have hc := Utf8.symbols_encode_append c (text b)
    obtain ⟨later, hd, _⟩ := Utf8.decode_of_symbols hc
    have hbytes := Utf8.bytes_of_decode hd
    rw [← List.append_cancel_left hbytes] at hd
    exact hd
  | stray x =>
    obtain ⟨front, rest, rest', rfl, rfl, hr⟩ := hs
    simp only [text_cons, bytes, List.cons_append, List.nil_append, Utf8.decode, text_append] at h ⊢
    cases hscan : Utf8.scan (x :: (text front ++ text rest')) with
    | malformed => rfl
    | unfinished => rfl
    | whole c after =>
      -- a character here would have been one before
      obtain ⟨later, hl⟩ := Utf8.scan_of_append (List.cons_ne_nil x (text front)) (leading_of_head_text hr) hscan
      have hbefore := (@Utf8.scan_append (x :: text front) (text rest)).1 c later hl
      rw [List.cons_append] at hbefore
      rw [hbefore] at h
      cases h

/-- Symbols stay when what follows is changed behind a blank. -/
theorem Genuine.append_of_same {w : List Symbol} (h : Genuine (w ++ a)) (hs : SameUntilBlank a b) (hb : Genuine b) :
    Genuine (w ++ b) := by
  induction w with
  | nil => exact hb
  | cons r w ih =>
    obtain ⟨hd, hw⟩ := genuine_cons.1 h
    exact genuine_cons.2 ⟨decode_of_same hd (hs.append_left w), ih hw⟩

/-- The end of a text is a boundary like a blank. -/
theorem Genuine.front (h : Genuine (a ++ b)) : Genuine a := by
  have ha := h.append_of_same (.of_blank b (by simp)) genuine_nil
  rwa [List.append_nil] at ha

end Symbol

end CallLang
