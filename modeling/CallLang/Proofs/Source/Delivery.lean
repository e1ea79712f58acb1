import CallLang.Proofs.Text.Symbols
import CallLang.Source.Input

/-!
# Clean deliveries

A list of deliveries is clean when its only fault is the end of the input, no byte comes after an end, and it never has
`patience` empty deliveries in a row. From clean deliveries an input reads the symbols of the bytes that they bring,
however these are split, and then reports ends for as long as it is asked.

The invariant is `Input.Smooth`: what comes is clean, and a pending fault is the end with no byte to come. Waiting for
deliveries keeps it (`smooth_fill`): an input that waits after `idle` empty deliveries waits as one that has them still
before it.

- `next_of_symbols`, `next_of_nil`: an input takes the first symbol of the bytes ahead, or reports the end;
- `peek_of_symbols`, `peek_of_nil`: the same for looking.
-/

namespace CallLang

/-- The delivery that brings nothing. -/
def Delivery.empty : Delivery := ⟨[], none⟩

namespace Input

/-- Deliveries that bring some bytes and end. -/
structure Clean (coming : List Delivery) : Prop where
  /-- The only fault is the end. -/
  unfailing : ∀ d ∈ coming, ∀ message, d.fault ≠ some (.failed message)
  /-- No byte comes after an end. -/
  complete : ∀ before d after, coming = before ++ d :: after → d.fault = some .ended → incoming after = []
  /-- There are never too many empty deliveries in a row. -/
  lively : ¬ List.replicate patience Delivery.empty <:+: coming

/-- What is left of clean deliveries is clean. -/
theorem Clean.suffix {before coming : List Delivery} (h : Clean (before ++ coming)) : Clean coming where
  unfailing d hd := h.unfailing d (List.mem_append_right _ hd)
  complete front d after he := h.complete (before ++ front) d after (by rw [he, List.append_assoc])
  lively hi := h.lively (hi.trans (List.suffix_append before coming).isInfix)

/-- A few deliveries without a fault, and a last one that may end the input, are clean. -/
theorem clean_concat {init : List Delivery} {last : Delivery} (hi : ∀ d ∈ init, d.fault = none)
    (hl : last.fault = none ∨ last.fault = some .ended) (hn : init.length + 1 < patience) :
    Clean (init ++ [last]) where
  unfailing d hd message := by
    rcases List.mem_append.1 hd with hd | hd
    · simp [hi d hd]
    · rw [List.mem_singleton.1 hd]
      rcases hl with hl | hl <;> simp [hl]
  complete before d after he hd := by
    rcases List.eq_nil_or_concat after with rfl | ⟨front, x, rfl⟩
    · rfl
    · rw [List.concat_eq_append, ← List.cons_append, ← List.append_assoc] at he
      have hmem : d ∈ init := by
        rw [(List.append_inj' he rfl).1]
        simp
      rw [hi d hmem] at hd
      cases hd
  lively h := by
    have := h.length_le
    simp only [List.length_replicate, List.length_append, List.length_singleton] at this
    omega

/-- A text in one delivery is clean. -/
theorem clean_single (text : Bytes) : Clean [⟨text, none⟩] :=
  @clean_concat [] ⟨text, none⟩ (by simp) (.inl rfl) (by decide)

/-! ## Waiting -/

/-- What comes is clean, and a pending fault is the end. -/
structure Smooth (i : Input) : Prop where
  clean : Clean i.coming
  pending : i.pending = none ∨ i.pending = some .ended ∧ incoming i.coming = []

/-- An input that waits after `idle` empty deliveries waits as if they were still to come. -/
theorem smooth_fill {buffer : Bytes} {idle : Nat} {coming : List Delivery}
    (h : Clean (List.replicate idle Delivery.empty ++ coming)) : (fill buffer idle coming).Smooth := by
  induction coming generalizing buffer idle with
  | nil =>
    unfold fill
    split
    · exact ⟨h.suffix, .inl rfl⟩
    · exact ⟨h.suffix, .inr ⟨rfl, rfl⟩⟩
  | cons d coming ih =>
    obtain ⟨data, fault⟩ := d
    have hc : Clean coming := by
      have := h
      rw [List.append_cons] at this
      exact this.suffix
    unfold fill
    split
    · exact ⟨h.suffix, .inl rfl⟩
    · split
      · next fault hf =>
        refine ⟨hc, .inr ?_⟩
        dsimp only at hf
        subst hf
        cases fault with
        | ended => exact ⟨rfl, h.complete _ _ _ rfl rfl⟩
        | failed message => exact absurd rfl (h.unfailing _ (List.mem_append_right _ List.mem_cons_self) message)
      · next hd hf =>
        dsimp only at hd hf
        subst hd hf
        have he : List.replicate idle Delivery.empty ++ Delivery.empty :: coming =
            List.replicate (idle + 1) Delivery.empty ++ coming := by
          rw [List.replicate_succ', List.append_assoc]
          rfl
        have h' : Clean (List.replicate (idle + 1) Delivery.empty ++ coming) := he ▸ h
        split
        · next hp =>
          rw [hp] at h'
          exact absurd (List.prefix_append _ _).isInfix h'.lively
        · exact ih h'
      · exact ih hc

theorem smooth_settle {i : Input} (h : i.Smooth) : i.settle.Smooth := by
  unfold settle
  split
  · exact h
  · exact smooth_fill h.clean

/-- Behind a head that is not decided there are no more bytes. -/
theorem settled_or_done {i : Input} (h : i.Smooth) :
    Utf8.settled i.settle.buffer = true ∨ incoming i.settle.coming = [] := by
  rcases (smooth_settle h).pending with hp | ⟨_, hn⟩
  · exact .inl (settled_settle hp)
  · exact .inr hn

/-- The head of the buffer is the head of all bytes ahead. -/
theorem decode_settle {i : Input} (h : i.Smooth) {r : Symbol} {rest : Bytes}
    (hd : Utf8.decode i.settle.buffer = some (r, rest)) :
    Utf8.decode i.ahead = some (r, rest ++ incoming i.settle.coming) := by
  rw [← ahead_settle, ahead]
  rcases settled_or_done h with hs | hn
  · exact Utf8.decode_append hs hd
  · rw [hn, List.append_nil, List.append_nil]
    exact hd

/-- An empty buffer is the end of the bytes ahead. -/
theorem ahead_of_decode_settle {i : Input} (h : i.Smooth) (hd : Utf8.decode i.settle.buffer = none) : i.ahead = [] := by
  have hb := Utf8.decode_eq_none_iff.1 hd
  rw [← ahead_settle, ahead, hb, List.nil_append]
  rcases settled_or_done h with hs | hn
  · rw [hb, Utf8.not_settled_nil] at hs
    cases hs
  · exact hn

/-- The first symbol ahead has arrived once the input has waited. -/
theorem decode_settle_of_symbols {i : Input} (h : i.Smooth) {r : Symbol} {rest : List Symbol}
    (hs : Utf8.symbols i.ahead = r :: rest) :
    ∃ later, Utf8.decode i.settle.buffer = some (r, later) ∧
      Utf8.symbols (later ++ incoming i.settle.coming) = rest := by
  obtain ⟨all, hd, ha⟩ := Utf8.decode_of_symbols hs
  cases hb : Utf8.decode i.settle.buffer with
  | none =>
    rw [ahead_of_decode_settle h hb] at hd
    cases hd
  | some found =>
    obtain ⟨r', later⟩ := found
    rw [decode_settle h hb] at hd
    cases hd
    exact ⟨later, rfl, ha⟩

/-! ## Taking and looking -/

/-- An input takes the first symbol of the bytes ahead. -/
theorem next_of_symbols {i : Input} (h : i.Smooth) {r : Symbol} {rest : List Symbol}
    (hs : Utf8.symbols i.ahead = r :: rest) :
    ∃ j, i.next = (.ok r, j) ∧ j.Smooth ∧ Utf8.symbols j.ahead = rest := by
  obtain ⟨later, hd, hl⟩ := decode_settle_of_symbols h hs
  have hsm := smooth_settle h
  exact ⟨{ i.settle with buffer := later }, by simp only [next, hd], ⟨hsm.clean, hsm.pending⟩, hl⟩

/-- Looking finds the first symbol of the bytes ahead and leaves it there. -/
theorem peek_of_symbols {i : Input} (h : i.Smooth) {r : Symbol} {rest : List Symbol}
    (hs : Utf8.symbols i.ahead = r :: rest) :
    ∃ j, i.peek = (.ok r, j) ∧ j.Smooth ∧ Utf8.symbols j.ahead = r :: rest := by
  obtain ⟨later, hd, _⟩ := decode_settle_of_symbols h hs
  exact ⟨i.settle, by simp only [peek, hd], smooth_settle h, by rw [ahead_settle, hs]⟩

/-- An input with nothing ahead reports the end, and has nothing ahead then. -/
theorem report_of_nil {i : Input} (h : i.Smooth) (hn : i.ahead = []) :
    Utf8.decode i.settle.buffer = none ∧ i.settle.report.1 = .ended ∧ i.settle.report.2.Smooth ∧
      i.settle.report.2.ahead = [] := by
  have hsm := smooth_settle h
  have ha : i.settle.ahead = [] := by rw [ahead_settle, hn]
  have hb : i.settle.buffer = [] := (List.append_eq_nil_iff.1 ha).1
  refine ⟨by rw [hb]; rfl, ?_, ⟨hsm.clean, .inl rfl⟩, ha⟩
  rcases hsm.pending with hp | ⟨hp, _⟩
  · simp [report, hp]
  · simp [report, hp]

theorem next_of_nil {i : Input} (h : i.Smooth) (hn : i.ahead = []) :
    ∃ j, i.next = (.error .ended, j) ∧ j.Smooth ∧ j.ahead = [] := by
  obtain ⟨hd, he, hsm, ha⟩ := report_of_nil h hn
  exact ⟨i.settle.report.2, by simp only [next, hd, he], hsm, ha⟩

theorem peek_of_nil {i : Input} (h : i.Smooth) (hn : i.ahead = []) :
    ∃ j, i.peek = (.error .ended, j) ∧ j.Smooth ∧ j.ahead = [] := by
  obtain ⟨hd, he, hsm, ha⟩ := report_of_nil h hn
  exact ⟨i.settle.report.2, by simp only [peek, hd, he], hsm, ha⟩

end Input

end CallLang
