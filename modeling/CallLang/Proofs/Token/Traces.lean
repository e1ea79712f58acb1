import CallLang.Proofs.Source.Account
import CallLang.Proofs.Token.Scanning

/-!
# What a scanner does with its input

All that a scanner does with its input is to look at the next symbol and to take it. `Reads s taken t` says that a
sequence of these brings `s` to `t` and that `taken` are the symbols taken on the way, in order. Every operation of a
scanner is such a sequence, from `accept` up to a run (`reads_run`), whatever deliveries and faults it meets. What
looking and taking preserve is then preserved by all operations.

- `Reads.position_eq`: the place of a scanner moves over the symbols taken;
- `Reads.coming_suffix`: deliveries are used from the front.
-/

namespace CallLang

namespace Scanner

section Note

variable (s : Scanner) (fault : Fault)

@[simp] theorem input_note : (s.note fault).input = s.input := by
  unfold note
  split <;> rfl

@[simp] theorem position_note : (s.note fault).position = s.position := by
  unfold note
  split <;> rfl

end Note

theorem input_peek (s : Scanner) : s.peek.2.input = s.input.peek.2 := by
  unfold peek
  split <;> simp_all

theorem input_next (s : Scanner) : s.next.2.input = s.input.next.2 := by
  unfold next
  split <;> simp_all

/-! ## Traces -/

/-- The scanner `s` gets to `t` by looking at symbols and by taking the symbols `taken`. -/
inductive Reads : Scanner → List Symbol → Scanner → Prop
  | refl (s : Scanner) : Reads s [] s
  | look {s t u : Scanner} {c : Option Char} {taken : List Symbol} (h : s.peek = (c, t)) (hr : Reads t taken u) :
      Reads s taken u
  | take {s u : Scanner} {r : Symbol} {input : Input} {taken : List Symbol} (h : s.input.next = (.ok r, input))
      (hr : Reads { s with input, position := s.position.advance r } taken u) : Reads s (r :: taken) u
  | fault {s t u : Scanner} {taken : List Symbol} (h : s.next = (none, t)) (hr : Reads t taken u) : Reads s taken u

variable {s t u : Scanner} {a b taken : List Symbol} {c : Char}

/-- Traces compose. -/
theorem Reads.trans (h : Reads s a t) (h' : Reads t b u) : Reads s (a ++ b) u := by
  induction h with
  | refl s => exact h'
  | look h _ ih => exact .look h (ih h')
  | take h _ ih => exact .take h (ih h')
  | fault h _ ih => exact .fault h (ih h')

/-- A scanner moves over the symbols that it takes. -/
theorem Reads.position_eq (h : Reads s taken t) : t.position = taken.foldl Position.advance s.position := by
  induction h with
  | refl s => rfl
  | look h _ ih =>
    rw [ih]
    unfold peek at h
    split at h <;> cases h <;> simp
  | take h _ ih => rw [ih]; rfl
  | fault h _ ih =>
    rw [ih]
    unfold next at h
    split at h <;> cases h
    simp

/-- Deliveries are used from the front. -/
theorem Reads.coming_suffix (h : Reads s taken t) : t.input.coming <:+ s.input.coming := by
  induction h with
  | refl s => exact List.suffix_refl _
  | @look s _ _ _ _ h _ ih =>
    have hi := s.input_peek
    rw [h] at hi
    rw [hi, Input.coming_peek] at ih
    exact ih.trans s.input.coming_settle_suffix
  | @take s _ _ _ _ h _ ih =>
    have hc := Input.coming_next s.input
    rw [h] at hc
    exact ih.trans (hc ▸ s.input.coming_settle_suffix)
  | @fault s _ _ _ h _ ih =>
    have hi := s.input_next
    rw [h] at hi
    rw [hi, Input.coming_next] at ih
    exact ih.trans s.input.coming_settle_suffix

/-! ## Every operation is a trace -/

theorem reads_peek {o : Option Char} (h : s.peek = (o, t)) : Reads s [] t :=
  .look h (.refl t)

theorem reads_next_none (h : s.next = (none, t)) : Reads s [] t :=
  .fault h (.refl t)

theorem reads_next (h : s.next = (some c, t)) : ∃ r, r.scalar = c ∧ Reads s [r] t := by
  unfold next at h
  split at h
  · next r input hn =>
    cases h
    exact ⟨r, rfl, .take hn (.refl _)⟩
  · cases h

section Accept

variable {α : Type} {f : Char → Option α}

theorem reads_accept_some {x : α} (h : s.accept f = (some x, t)) : ∃ r, f r.scalar = some x ∧ Reads s [r] t := by
  unfold accept at h
  split at h
  · next c u hp =>
    split at h
    · next hf =>
      obtain ⟨v, hv⟩ := next_of_peek hp
      rw [hv] at h
      cases h
      obtain ⟨r, rfl, hr⟩ := reads_next hv
      exact ⟨r, hf, .look hp hr⟩
    · cases h
  · cases h

theorem reads_accept_none (h : s.accept f = (none, t)) : Reads s [] t := by
  unfold accept at h
  split at h
  · next hp =>
    split at h
    · cases h
    · cases h
      exact reads_peek hp
  · next hp =>
    cases h
    exact reads_peek hp

end Accept

theorem reads_takeWhile (p : Char → Bool) (s : Scanner) : ∃ taken, Reads s taken (s.takeWhile p).2 := by
  fun_induction takeWhile p s with
  | case1 s c t ha cs u hw ih =>
    rw [hw] at ih
    obtain ⟨r, _, hr⟩ := reads_accept_some ha
    obtain ⟨taken, ht⟩ := ih
    exact ⟨_, hr.trans ht⟩
  | case2 s t ha => exact ⟨[], reads_accept_none ha⟩

theorem reads_stringBody (s : Scanner) : ∃ taken, Reads s taken s.stringBody.2 := by
  fun_induction stringBody s with
  | case1 s t hn => exact ⟨[], reads_next_none hn⟩
  | case2 s t hn =>
    obtain ⟨r, _, hr⟩ := reads_next hn
    exact ⟨_, hr⟩
  | case3 s t _ u ha cs v hb hn _ ih =>
    rw [hb] at ih
    obtain ⟨q, _, hq⟩ := reads_next hn
    obtain ⟨r, _, hr⟩ := reads_accept_some ha
    obtain ⟨taken, ht⟩ := ih
    exact ⟨_, (hq.trans hr).trans ht⟩
  | case4 s t u ha cs v hb hn _ ih =>
    rw [hb] at ih
    obtain ⟨q, _, hq⟩ := reads_next hn
    obtain ⟨taken, ht⟩ := ih
    exact ⟨_, (hq.trans (reads_accept_none ha)).trans ht⟩
  | case5 s c t hn _ _ cs v hb ih =>
    rw [hb] at ih
    obtain ⟨q, _, hq⟩ := reads_next hn
    obtain ⟨taken, ht⟩ := ih
    exact ⟨_, hq.trans ht⟩

theorem reads_lexeme (c : Char) (s : Scanner) : ∃ taken, Reads s taken (s.lexeme c).2 := by
  unfold lexeme
  split
  · exact ⟨[], .refl s⟩
  · split
    · exact reads_stringBody s
    · split
      · have h := reads_takeWhile isDigit s
        dsimp only
        split <;> exact h
      · split
        · exact reads_takeWhile isWordPart s
        · exact ⟨[], .refl s⟩

/-- Looking for a token takes blanks only when there is none. -/
theorem reads_nextSolid_none (h : s.nextSolid = (none, t)) :
    ∃ gap u, (∀ r ∈ gap, r.blank = true) ∧ Reads s gap u ∧ u.next = (none, t) := by
  fun_induction nextSolid s with
  | case1 s c s' hn hb ih =>
    obtain ⟨r, rfl, hr⟩ := reads_next hn
    obtain ⟨gap, u, hg, hu, hnext⟩ := ih h
    refine ⟨r :: gap, u, ?_, hr.trans hu, hnext⟩
    intro q hq
    rcases List.mem_cons.1 hq with rfl | hq
    · rw [← isBlank_scalar, hb]
    · exact hg q hq
  | case2 => cases h
  | case3 s s' hn =>
    cases h
    exact ⟨[], s, by simp, .refl s, hn⟩

/-- Looking for a token takes blanks up to the first symbol of the token. -/
theorem reads_nextSolid_some {start : Position} (h : s.nextSolid = (some (start, c), t)) :
    ∃ gap r, (∀ q ∈ gap, q.blank = true) ∧ r.scalar = c ∧ start = gap.foldl Position.advance s.position ∧
      Reads s (gap ++ [r]) t := by
  fun_induction nextSolid s with
  | case1 s c' s' hn hb ih =>
    obtain ⟨q, rfl, hq⟩ := reads_next hn
    obtain ⟨gap, r, hg, hr, hs, ht⟩ := ih h
    refine ⟨q :: gap, r, ?_, hr, ?_, hq.trans ht⟩
    · intro q' hq'
      rcases List.mem_cons.1 hq' with rfl | hq'
      · rw [← isBlank_scalar, hb]
      · exact hg q' hq'
    · rw [hs, hq.position_eq]
      rfl
  | case2 s c' s' hn hb =>
    cases h
    obtain ⟨r, rfl, hr⟩ := reads_next hn
    exact ⟨[], r, by simp, rfl, rfl, hr⟩
  | case3 => cases h

theorem nextSolid_of_token (h : s.token? = (none, t)) : s.nextSolid = (none, t) := by
  unfold token? at h
  split at h
  · next hs =>
    cases h
    exact hs
  · cases h

/-- A token takes blanks, its first symbol and the rest of its word; it starts behind the blanks. -/
theorem reads_token {token : Token} (h : s.token? = (some token, t)) :
    ∃ gap r tail, (∀ q ∈ gap, q.blank = true) ∧ Reads s (gap ++ r :: tail) t ∧
      token.place = some (.ofPosition s.file (gap.foldl Position.advance s.position)) ∧
      token.length = (t.position.offset - (gap.foldl Position.advance s.position).offset : Nat) := by
  unfold token? at h
  split at h
  · cases h
  · next start c u hs =>
    cases h
    obtain ⟨gap, r, hg, _, hstart, hr⟩ := reads_nextSolid_some hs
    obtain ⟨tail, ht⟩ := reads_lexeme c u
    have hall := hr.trans ht
    rw [List.append_assoc, List.singleton_append] at hall
    exact ⟨gap, r, tail, hg, hall, by rw [hstart], by rw [hstart]⟩

/-- A run ends where the input reports a fault. -/
theorem run_ends (s : Scanner) : ∃ taken t, Reads s taken t ∧ t.next = (none, s.run.2) := by
  fun_induction run s with
  | case1 s t h =>
    obtain ⟨gap, u, _, hr, hn⟩ := reads_nextSolid_none (nextSolid_of_token h)
    exact ⟨gap, u, hr, hn⟩
  | case2 s token t h tokens u hr ih =>
    rw [hr] at ih
    obtain ⟨gap, r, tail, _, ht, _⟩ := reads_token h
    obtain ⟨taken, v, hv, hn⟩ := ih
    exact ⟨_, v, ht.trans hv, hn⟩

/-- **A run only looks and takes.** -/
theorem reads_run (s : Scanner) : ∃ taken, Reads s taken s.run.2 := by
  obtain ⟨taken, t, ht, hn⟩ := run_ends s
  exact ⟨_, ht.trans (reads_next_none hn)⟩

end Scanner

end CallLang
