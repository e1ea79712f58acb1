import CallLang.Proofs.Token.Account
import CallLang.Proofs.Token.Interruption

/-!
# Looking ahead

A scanner looks at a symbol before it takes it. Looking waits for deliveries as taking does, so what looking has found
is decided: it is found again, and it is taken next (`Scanner.peek_again`, `Scanner.next_again`), whatever is still to
come and whatever fault is pending. The scanner does not move, and all tokens that it reads from there are the same
(`Scanner.runs_again`). Looking that finds nothing has reported a fault, as taking would have, so it is as good as a run
without tokens (`Scanner.runs_of_peek_none`).

- `Symbol.Leads` says of a symbol, apart from the decoder, that it is the first one of the bytes that have arrived;
- `Input.Sees` says that an input has waited for a symbol, and `Scanner.exists_sees` finds this symbol in the source;
- `Scanner.mark_lt_of_token`: a token ends behind the place where it is marked;
- `Scanner.emits_of_runs`: each token of each run is read in a state that looking and taking lead to.

`lookahead_coherent` puts this together for all states that a scanner can get to.
-/

namespace CallLang

/-! ## The first symbol of what has arrived -/

/-- The bytes begin with the sequence of a character, or with a byte that begins the sequence of none of them. -/
def Symbol.Leads (bytes : Bytes) : Symbol → Prop
  | .char c => Utf8.encode c <+: bytes
  | .stray b => [b] <+: bytes ∧ ∀ c, ¬ Utf8.encode c <+: bytes

theorem Utf8.leads_of_decode {bytes rest : Bytes} {r : Symbol} (h : decode bytes = some (r, rest)) : r.Leads bytes := by
  cases bytes with
  | nil => cases h
  | cons b bytes =>
    rw [decode] at h
    split at h
    · next c after hs =>
      cases h
      rw [Symbol.Leads, eq_encode_of_scan hs]
      exact List.prefix_append _ _
    · next hs =>
      cases h
      refine ⟨⟨rest, rfl⟩, ?_⟩
      rintro c ⟨after, hc⟩
      exact hs c after (by rw [← hc, scan_encode])

/-! ## Inputs -/

namespace Input

variable {i j : Input} {r : Symbol}

/-- A look has waited at `j`, where `r` is the first symbol of the buffer: more bytes do not change this, or a fault is
pending and no more are waited for. -/
structure Sees (j : Input) (r : Symbol) : Prop where
  decided : j.pending = none → Utf8.settled j.buffer = true
  first : ∃ rest, Utf8.decode j.buffer = some (r, rest)

theorem sees_of_peek (h : i.peek = (.ok r, j)) : j.Sees r := by
  unfold peek at h
  dsimp only at h
  split at h
  · next rest hd =>
    cases h
    exact ⟨settled_settle, rest, hd⟩
  · cases h

/-- What has been seen is seen again. -/
theorem Sees.peek (h : j.Sees r) : j.peek = (.ok r, j) := by
  obtain ⟨rest, hd⟩ := h.first
  unfold Input.peek
  simp only [settle_eq h.decided, hd]

/-- What has been seen is taken next, and nothing else changes. -/
theorem Sees.next (h : j.Sees r) :
    ∃ rest, j.buffer = r.bytes ++ rest ∧ j.next = (.ok r, { j with buffer := rest }) := by
  obtain ⟨rest, hd⟩ := h.first
  refine ⟨rest, Utf8.bytes_of_decode hd, ?_⟩
  unfold Input.next
  simp only [settle_eq h.decided, hd]

/-- Looking does not change what is taken. -/
theorem next_of_peek_ok (h : i.peek = (.ok r, j)) : i.next = j.next := by
  have hj : j = i.settle := by
    unfold peek at h
    dsimp only at h
    split at h <;> cases h
    rfl
  unfold next
  rw [hj, settle_settle]

/-- A fault that looking reports is the one that taking reports. -/
theorem next_of_peek_error {fault : Fault} (h : i.peek = (.error fault, j)) : i.next = (.error fault, j) := by
  unfold peek at h
  unfold next
  dsimp only at h ⊢
  split at h
  · cases h
  · cases h
    rfl

end Input

/-! ## Scanners -/

namespace Scanner

variable {s t u : Scanner} {c : Char}

/-- Looking does not move. -/
theorem position_peek (s : Scanner) : s.peek.2.position = s.position := by
  unfold peek
  split
  · rfl
  · rw [position_note]

theorem input_of_peek (h : s.peek = (some c, t)) :
    ∃ r, r.scalar = c ∧ s.input.peek = (.ok r, t.input) ∧ t = { s with input := t.input } := by
  unfold peek at h
  split at h
  · next r input hp =>
    cases h
    exact ⟨r, rfl, hp, rfl⟩
  · cases h

/-- **What looking finds, looking finds again.** -/
theorem peek_again (h : s.peek = (some c, t)) : t.peek = (some c, t) := by
  obtain ⟨r, rfl, hp, _⟩ := input_of_peek h
  unfold peek
  rw [(Input.sees_of_peek hp).peek]

/-- **Looking does not change what is taken.** -/
theorem next_again (h : s.peek = (some c, t)) : t.next = s.next := by
  obtain ⟨r, rfl, hp, ht⟩ := input_of_peek h
  unfold next
  rw [Input.next_of_peek_ok hp, ht]

/-- A fault that looking meets is the one that taking meets. -/
theorem next_of_peek_none (h : s.peek = (none, t)) : s.next = (none, t) := by
  unfold peek at h
  unfold next
  split at h
  · cases h
  · next hp =>
    cases h
    rw [Input.next_of_peek_error hp]

/-! ### What is read behind a look -/

/-- The next token begins at the same place. -/
theorem nextSolid_again (h : s.peek = (some c, t)) : t.nextSolid = s.nextSolid := by
  have hn := next_again h
  have hpos := s.position_peek
  rw [h] at hpos
  cases hs : s.next with
  | mk o u =>
    rw [hs] at hn
    cases o with
    | none => rw [nextSolid_end hn, nextSolid_end hs]
    | some d =>
      cases hb : isBlank d with
      | true => rw [nextSolid_blank hn hb, nextSolid_blank hs hb]
      | false => rw [nextSolid_solid hn hb, nextSolid_solid hs hb, hpos]

theorem token_again (h : s.peek = (some c, t)) : t.token? = s.token? := by
  obtain ⟨_, _, _, ht⟩ := input_of_peek h
  have hfile : t.file = s.file := by rw [ht]
  unfold token?
  rw [nextSolid_again h, hfile]

theorem run_again (h : s.peek = (some c, t)) : t.run = s.run := by
  have ht := token_again h
  cases hs : s.token? with
  | mk o u =>
    rw [hs] at ht
    cases o with
    | none => rw [run_stop ht, run_stop hs]
    | some token => rw [run_step ht, run_step hs]

/-- **Looking changes no token**, neither one of those before nor one of those to come. -/
theorem runs_again (h : s.peek = (some c, t)) (before : List Token) (n : Nat) : runs before t n = runs before s n := by
  cases n with
  | zero => rfl
  | succ n => rw [runs, runs, run_again h]

/-- Looking that meets a fault is a run without a token. -/
theorem runs_of_peek_none (h : s.peek = (none, t)) (before : List Token) (n : Nat) :
    runs before s (n + 1) = ⟨before, t.failure⟩ :: runs before t n := by
  have hrun : s.run = ([], t) := by
    apply run_stop
    unfold token?
    rw [nextSolid_end (next_of_peek_none h)]
  simp only [runs, hrun, List.append_nil]

/-! ### Places in the source -/

variable {file : Bytes} {script : List Delivery} {taken : List Symbol}

/-- What is buffered stands in the source behind what was taken. -/
theorem Reads.buffer_in_source (h : (ofDeliveries file script).Reads taken s) :
    s.input.buffer <+: (Input.incoming script).drop s.position.offset := by
  obtain ⟨delivered, ha⟩ := (account_ofDeliveries file script).reads h
  rw [List.nil_append, List.nil_append] at ha
  refine ⟨Input.incoming s.input.coming, ?_⟩
  rw [ha.input.script_eq, Input.incoming_append, ha.input.bytes_eq, ha.position_eq, Position.offset_past,
    List.append_assoc, List.drop_left]

/-- What a look finds is the next symbol of the source, and taking it goes on by its width and nothing else. -/
theorem exists_sees (h : (ofDeliveries file script).Reads taken s) (hp : s.peek = (some c, t)) :
    ∃ r u, r.scalar = c ∧ t.input.Sees r ∧ r.Leads t.input.buffer ∧
      t.input.buffer <+: (Input.incoming script).drop s.position.offset ∧
      t.next = (some c, u) ∧ u.position = s.position.advance r ∧
      t.input.buffer = r.bytes ++ u.input.buffer ∧ u.input.pending = t.input.pending := by
  obtain ⟨r, rfl, hinput, ht⟩ := input_of_peek hp
  have hsees := Input.sees_of_peek hinput
  obtain ⟨_, hd⟩ := hsees.first
  obtain ⟨rest, hrest, hnext⟩ := hsees.next
  have hpos : t.position = s.position := by rw [ht]
  have hbuffer := (h.trans (reads_peek hp)).buffer_in_source
  rw [hpos] at hbuffer
  refine ⟨r, { t with input := { t.input with buffer := rest }, position := t.position.advance r }, rfl, hsees,
    Utf8.leads_of_decode hd, hbuffer, ?_, by rw [← hpos], hrest, rfl⟩
  unfold next
  rw [hnext]

/-! ### Tokens -/

/-- **A token ends behind its mark**, which is the place that it has. -/
theorem mark_lt_of_token {token : Token} (h : s.token? = (some token, t)) :
    ∃ mark : Position, token.place = some (.ofPosition s.file mark) ∧ s.position.offset ≤ mark.offset ∧
      mark.offset < t.position.offset ∧ token.length = (t.position.offset - mark.offset : Nat) := by
  obtain ⟨gap, r, tail, _, hr, hplace, hlength⟩ := reads_token h
  refine ⟨gap.foldl Position.advance s.position, hplace, Position.offset_le_foldl _ gap, ?_, hlength⟩
  have hpos := hr.position_eq
  rw [List.foldl_append, List.foldl_cons] at hpos
  have hle := Position.offset_le_foldl ((gap.foldl Position.advance s.position).advance r) tail
  rw [← hpos, Position.offset_advance] at hle
  have hwidth : 0 < r.width := List.length_pos_iff.2 r.bytes_ne_nil
  omega

/-- The scanner `s` reads `token` some time after looking and taking. -/
def Emits (s : Scanner) (token : Token) : Prop :=
  ∃ taken t u, s.Reads taken t ∧ t.token? = (some token, u)

theorem Emits.of_reads {token : Token} (h : t.Emits token) (hr : s.Reads taken t) : s.Emits token := by
  obtain ⟨later, v, u, hv, hu⟩ := h
  exact ⟨taken ++ later, v, u, hr.trans hv, hu⟩

/-- Each token of a run is read in a state of the run. -/
theorem emits_of_mem_run (s : Scanner) : ∀ token ∈ s.run.1, s.Emits token := by
  fun_induction run s with
  | case1 => simp
  | case2 s token t ht tokens u hrun ih =>
    rw [hrun] at ih
    intro other hmem
    rcases List.mem_cons.1 hmem with rfl | hmem
    · exact ⟨[], s, t, .refl s, ht⟩
    · obtain ⟨_, _, _, _, hr, _⟩ := reads_token ht
      exact (ih other hmem).of_reads hr

/-- Each token of several runs was there before or is read in a state of them. -/
theorem emits_of_runs (before : List Token) (s : Scanner) (n : Nat) :
    ∀ reading ∈ runs before s n, ∀ token ∈ reading.tokens, token ∈ before ∨ s.Emits token := by
  induction n generalizing before s with
  | zero => simp [runs]
  | succ n ih =>
    intro reading hreading token hmem
    rw [runs] at hreading
    have hrun : token ∈ before ++ s.run.1 → token ∈ before ∨ s.Emits token := fun h =>
      (List.mem_append.1 h).imp_right (emits_of_mem_run s token)
    rcases List.mem_cons.1 hreading with rfl | hreading
    · exact hrun hmem
    · obtain ⟨_, hr⟩ := reads_run s
      rcases ih _ _ reading hreading token hmem with h | h
      · exact hrun h
      · exact .inr (h.of_reads hr)

/-- **Looking ahead is coherent.** A scanner starts on any deliveries, and looking and taking lead it to `s`.

- Looking does not move it. If a fault is met, a run from `s` ends with it, so the tokens are those of before.
- If `c` is found, the tokens of all runs are the same as without looking, looking again finds `c`, and taking takes it.
  It is the symbol `r` with which the bytes begin that have arrived. These are the bytes of the source from the offset
  of `s` on, and there are enough of them to decide the symbol, unless a fault is pending. The offset grows by the bytes
  of `r`, so by one if `r` is a stray byte, and a fault that is pending stays so.
- A token that is read ends behind the place where it is marked.

After each run the scanner is in such a state, and all tokens of all runs are read in such states. -/
theorem lookahead_coherent (file : Bytes) (script : List Delivery) :
    let start := ofDeliveries file script
    (∀ taken s, start.Reads taken s →
      s.peek.2.position = s.position ∧
      (∀ t, s.peek = (none, t) → ∀ before n, runs before s (n + 1) = ⟨before, t.failure⟩ :: runs before t n) ∧
      (∀ c t, s.peek = (some c, t) →
        (∀ before n, runs before t n = runs before s n) ∧ t.peek = (some c, t) ∧ t.next = s.next ∧
        ∃ (r : Symbol) (u : Scanner), r.scalar = c ∧ t.next = (some c, u) ∧ r.Leads t.input.buffer ∧
          t.input.buffer <+: (Input.incoming script).drop s.position.offset ∧
          (t.input.pending = none → Utf8.settled t.input.buffer = true) ∧
          u.position.offset = s.position.offset + r.bytes.length ∧ t.input.buffer = r.bytes ++ u.input.buffer ∧
          u.input.pending = t.input.pending) ∧
      ∀ token t, s.token? = (some token, t) →
        ∃ mark : Position, token.place = some (.ofPosition s.file mark) ∧ mark.offset < t.position.offset ∧
          token.length = (t.position.offset - mark.offset : Nat)) ∧
    (∀ n, ∃ taken, start.Reads taken (start.after n)) ∧
    ∀ n, ∀ reading ∈ runs [] start n, ∀ token ∈ reading.tokens, start.Emits token := by
  intro start
  refine ⟨?_, reads_after start, ?_⟩
  · intro taken s h
    refine ⟨s.position_peek, fun t => runs_of_peek_none, ?_, ?_⟩
    · intro c t hp
      obtain ⟨r, u, hr, hsees, hleads, hbuffer, hnext, hposition, hrest, hpending⟩ := exists_sees h hp
      refine ⟨runs_again hp, peek_again hp, next_again hp, r, u, hr, hnext, hleads, hbuffer, hsees.decided, ?_, hrest,
        hpending⟩
      rw [hposition, Position.offset_advance, Symbol.width]
    · intro token t ht
      obtain ⟨mark, hplace, _, hlt, hlength⟩ := mark_lt_of_token ht
      exact ⟨mark, hplace, hlt, hlength⟩
  · intro n reading hreading token hmem
    exact (emits_of_runs [] start n reading hreading token hmem).resolve_left List.not_mem_nil

/-- A letter, and the first byte of a longer sequence in front of a failure; the rest of the sequence would come later.
The byte is seen and taken as a stray one while the failure is pending, and the letter is a token before it. -/
theorem lookahead_coherent_pending :
    let boom := ascii "boom"
    let start := ofDeliveries [] [⟨[0x61, 0xC3], none⟩, ⟨[], some (.failed boom)⟩, ⟨[0xA9], none⟩]
    let s := start.next.2
    let t := s.peek.2
    (∃ taken, start.Reads taken s) ∧ s.peek = (some '\uFFFD', t) ∧ t.input.pending = some (.failed boom) ∧
    t.position = s.position ∧ t.peek = (some '\uFFFD', t) ∧
    (∃ u, t.next = (some '\uFFFD', u) ∧ u.position.offset = s.position.offset + 1 ∧
      u.input.pending = some (.failed boom)) ∧
    ∃ token u, start.token? = (some token, u) ∧ ∃ mark : Position, token.place = some (.ofPosition [] mark) ∧
      mark.offset < u.position.offset := by
  intro boom start s t
  have hnext : start.next = (some 'a', s) := by decide +kernel
  have hpeek : s.peek = (some '\uFFFD', t) := by decide +kernel
  have hpending : t.input.pending = some (.failed boom) := by decide +kernel
  have hbuffer : t.input.buffer.length = 1 := by decide +kernel
  have htoken : start.token? = (some ⟨.identifier, ascii "a", some ⟨[], 1, 1, 0⟩, 1⟩, t) := by decide +kernel
  obtain ⟨r, _, hreads⟩ := reads_next hnext
  obtain ⟨hcoherent, _⟩ := lookahead_coherent [] [⟨[0x61, 0xC3], none⟩, ⟨[], some (.failed boom)⟩, ⟨[0xA9], none⟩]
  obtain ⟨hposition, _, hfound, _⟩ := hcoherent _ s hreads
  obtain ⟨_, hagain, _, r', u, _, hu, _, _, _, hoffset, hrest, hkept⟩ := hfound _ t hpeek
  have hone : r'.bytes.length = 1 := by
    have hpos := List.length_pos_iff.2 r'.bytes_ne_nil
    rw [hrest, List.length_append] at hbuffer
    omega
  obtain ⟨_, _, _, hemitted⟩ := hcoherent [] start (.refl start)
  obtain ⟨mark, hplace, hlt, _⟩ := hemitted _ t htoken
  exact ⟨⟨_, hreads⟩, hpeek, hpending, hposition, hagain, ⟨u, hu, by rw [hoffset, hone], by rw [hkept, hpending]⟩, _, t,
    htoken, mark, hplace, hlt⟩

end Scanner

end CallLang
