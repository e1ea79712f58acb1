import CallLang.Proofs.Source.Interruption
import CallLang.Proofs.Token.Account
import CallLang.Proofs.Token.Spans

/-!
# Where a failure stops a scanner

A failure of the input ends the token that it is met in, and ends the run only if it is met between tokens. So whether a
run stops at the first failure is decided by the deliveries up to the failure: `Undisturbed` says that a scanner meets
no failure inside a token.

Up to the failure a scanner does the same whatever comes later (`Awaits`, `extend`), with one lemma for each operation.
If the failure is met between tokens, the run is over (`Undisturbed.run_extend`). If it is met inside a token, the run
goes on and takes what comes next (`coming_of_disturbed`), and a token covers the last symbol taken unless it is blank
(`run_covers`).
-/

namespace CallLang

theorem Position.offset_le_foldl (p : Position) (taken : List Symbol) :
    p.offset ≤ (taken.foldl Position.advance p).offset := by
  induction taken generalizing p with
  | nil => exact Nat.le_refl _
  | cons r taken ih =>
    have := ih (p.advance r)
    rw [Position.offset_advance] at this
    rw [List.foldl_cons]
    omega

namespace Scanner

/-- No failure is met while a token is read. -/
inductive Undisturbed : Scanner → Prop
  | stop {s t : Scanner} (h : s.token? = (none, t)) : Undisturbed s
  | step {s t : Scanner} {token : Token} (h : s.token? = (some token, t)) (hf : t.failure = none)
      (hr : Undisturbed t) : Undisturbed s

/-- A scanner with more deliveries behind those that come. -/
def extend (later : List Delivery) (s : Scanner) : Scanner :=
  { s with input := s.input.extend later }

/-- The last delivery is `d`, it brings the first failure, and this failure has not been met. -/
structure Awaits (d : Delivery) (s : Scanner) : Prop where
  healthy : s.failure = none
  input : s.input.Awaits d

/-- The failure has just been met: nothing that came up to it is left. -/
structure Met (s : Scanner) : Prop where
  failed : s.failure ≠ none
  input_eq : s.input = ⟨[], none, []⟩

variable {d : Delivery} {s t u : Scanner} {later : List Delivery} {c : Char} {p : Char → Bool}

/-! ## Single symbols -/

theorem note_extend (s : Scanner) (fault : Fault) (later : List Delivery) :
    (s.extend later).note fault = (s.note fault).extend later := by
  cases fault with
  | ended => rfl
  | failed message => cases hf : s.failure <;> simp [note, extend, hf]

theorem next_extend (h : s.Awaits d) (later : List Delivery) :
    (s.extend later).next = (s.next.1, s.next.2.extend later) := by
  have hi := Input.next_extend h.input later
  cases hn : s.input.next with
  | mk answer input =>
    rw [hn] at hi
    cases answer with
    | ok r => simp only [next, extend, hi, hn]
    | error fault =>
      simp only [next, extend, hi, hn]
      exact congrArg (Prod.mk none) (note_extend { s with input } fault later)

theorem peek_extend (h : s.Awaits d) (later : List Delivery) :
    (s.extend later).peek = (s.peek.1, s.peek.2.extend later) := by
  have hi := Input.peek_extend h.input later
  cases hn : s.input.peek with
  | mk answer input =>
    rw [hn] at hi
    cases answer with
    | ok r => simp only [peek, extend, hi, hn]
    | error fault =>
      simp only [peek, extend, hi, hn]
      exact congrArg (Prod.mk none) (note_extend { s with input } fault later)

namespace Awaits

/-- A fault that is met is an end or the failure. -/
theorem note (h : s.Awaits d) {fault : Fault} {input : Input}
    (hf : (fault = .ended ∧ input.Awaits d) ∨ ((∃ message, fault = .failed message) ∧ input = ⟨[], none, []⟩)) :
    ({ s with input }.note fault).Awaits d ∨ ({ s with input }.note fault).Met := by
  rcases hf with ⟨rfl, hi⟩ | ⟨⟨message, rfl⟩, rfl⟩
  · exact .inl ⟨h.healthy, hi⟩
  · refine .inr ⟨?_, input_note _ _⟩
    rw [failure_note]
    simp [h.healthy, Fault.message?]

theorem next_some (h : s.Awaits d) (hn : s.next = (some c, t)) : t.Awaits d := by
  unfold Scanner.next at hn
  split at hn
  · next hi =>
    cases hn
    exact ⟨h.healthy, h.input.next_ok hi⟩
  · cases hn

theorem next_none (h : s.Awaits d) (hn : s.next = (none, t)) : t.Awaits d ∨ t.Met := by
  unfold Scanner.next at hn
  split at hn
  · cases hn
  · next hi =>
    cases hn
    exact h.note (h.input.next_error hi)

theorem peek_some (h : s.Awaits d) (hn : s.peek = (some c, t)) : t.Awaits d := by
  unfold Scanner.peek at hn
  split at hn
  · next hi =>
    cases hn
    exact ⟨h.healthy, h.input.peek_ok hi⟩
  · cases hn

theorem peek_none (h : s.Awaits d) (hn : s.peek = (none, t)) : t.Awaits d ∨ t.Met := by
  unfold Scanner.peek at hn
  split at hn
  · cases hn
  · next hi =>
    cases hn
    exact h.note (h.input.peek_error hi)

end Awaits

section Accept

variable {α : Type} {f : Char → Option α}

theorem Awaits.accept_some (h : s.Awaits d) {x : α} (ha : s.accept f = (some x, t)) (later : List Delivery) :
    t.Awaits d ∧ (s.extend later).accept f = (some x, t.extend later) := by
  unfold accept at ha ⊢
  rw [peek_extend h]
  cases hp : s.peek with
  | mk o u =>
    rw [hp] at ha
    cases o with
    | none => cases ha
    | some c =>
      have hu := h.peek_some hp
      obtain ⟨v, hv⟩ := next_of_peek hp
      dsimp only at ha ⊢
      split at ha
      · rw [hv] at ha
        cases ha
        rw [next_extend hu, hv]
        exact ⟨hu.next_some hv, rfl⟩
      · cases ha

theorem Awaits.accept_none (h : s.Awaits d) (ha : s.accept f = (none, t)) (later : List Delivery) :
    (t.Awaits d ∨ t.Met) ∧ (s.extend later).accept f = (none, t.extend later) := by
  unfold accept at ha ⊢
  rw [peek_extend h]
  cases hp : s.peek with
  | mk o u =>
    rw [hp] at ha
    cases o with
    | none =>
      cases ha
      exact ⟨h.peek_none hp, rfl⟩
    | some c =>
      dsimp only at ha ⊢
      split at ha
      · cases ha
      · cases ha
        exact ⟨.inl (h.peek_some hp), rfl⟩

end Accept

/-! ## Words -/

/-- A run of characters of a class ends at the failure, if it gets there. -/
theorem Awaits.takeWhile (h : s.Awaits d) (p : Char → Bool) (later : List Delivery) :
    ((s.takeWhile p).2.Awaits d ∨ (s.takeWhile p).2.Met) ∧
      (s.extend later).takeWhile p = ((s.takeWhile p).1, (s.takeWhile p).2.extend later) := by
  fun_induction Scanner.takeWhile p s with
  | case1 s c t ha cs u hw ih =>
    obtain ⟨ht, he⟩ := h.accept_some ha later
    obtain ⟨hu, hue⟩ := ih ht
    rw [hw] at hu hue
    refine ⟨hu, ?_⟩
    rw [takeWhile_step he, hue]
  | case2 s t ha =>
    obtain ⟨ht, he⟩ := h.accept_none ha later
    exact ⟨ht, takeWhile_stop he⟩

theorem Awaits.nextSolid (h : s.Awaits d) (later : List Delivery) :
    (s.nextSolid.2.Awaits d ∨ (s.nextSolid.1 = none ∧ s.nextSolid.2.Met)) ∧
      (s.extend later).nextSolid = (s.nextSolid.1, s.nextSolid.2.extend later) := by
  fun_induction Scanner.nextSolid s with
  | case1 s c t hn hb ih =>
    have he := next_extend h later
    rw [hn] at he
    obtain ⟨ht, hte⟩ := ih (h.next_some hn)
    exact ⟨ht, by rw [nextSolid_blank he hb, hte]⟩
  | case2 s c t hn hb =>
    have he := next_extend h later
    rw [hn] at he
    exact ⟨.inl (h.next_some hn), nextSolid_solid he (by simpa using hb)⟩
  | case3 s t hn =>
    have he := next_extend h later
    rw [hn] at he
    exact ⟨(h.next_none hn).imp_right fun hm => ⟨rfl, hm⟩, nextSolid_end he⟩

/-- The outcome of an operation that may meet the failure on its way: it has not, and does the same whatever comes
later, or it has, whatever comes later. -/
def Uniform (d : Delivery) (later : List Delivery) {α : Type} (outcome extended : α × Scanner) : Prop :=
  (outcome.2.Awaits d ∧ extended = (outcome.1, outcome.2.extend later)) ∨
  (outcome.2.failure ≠ none ∧ extended.2.failure ≠ none)

theorem Met.extend_failed (h : s.Met) (later : List Delivery) : (s.extend later).failure ≠ none :=
  h.failed

/-- A failure that was met stays. -/
theorem Reads.failed {taken : List Symbol} (h : Reads s taken t) (hf : s.failure ≠ none) : t.failure ≠ none := by
  obtain ⟨message, hm⟩ := Option.ne_none_iff_exists'.1 hf
  rw [h.failure_stays hm]
  simp

/-- A string goes on behind the failure if that is met behind a backslash, so not all of it is the same. -/
theorem Awaits.stringBody (h : s.Awaits d) (later : List Delivery) :
    Uniform d later s.stringBody (s.extend later).stringBody := by
  fun_induction Scanner.stringBody s with
  | case1 s t hn =>
    have he := next_extend h later
    rw [hn] at he
    rw [stringBody_end he]
    rcases h.next_none hn with ht | hm
    · exact .inl ⟨ht, rfl⟩
    · exact .inr ⟨hm.failed, hm.extend_failed later⟩
  | case2 s t hn =>
    have he := next_extend h later
    rw [hn] at he
    rw [stringBody_quote he]
    exact .inl ⟨h.next_some hn, rfl⟩
  | case3 s t x u ha cs v hv hn _ ih =>
    have he := next_extend h later
    rw [hn] at he
    obtain ⟨hu, hue⟩ := (h.next_some hn).accept_some ha later
    rw [stringBody_escape he hue]
    rcases ih hu with ⟨hw, hwe⟩ | hw
    · rw [hv] at hw hwe
      exact .inl ⟨hw, by rw [hwe]⟩
    · rw [hv] at hw
      exact .inr hw
  | case4 s t u ha cs v hv hn _ ih =>
    have he := next_extend h later
    rw [hn] at he
    obtain ⟨hu, hue⟩ := (h.next_some hn).accept_none ha later
    rw [stringBody_backslash he hue]
    rcases hu with hu | hm
    · rcases ih hu with ⟨hw, hwe⟩ | hw
      · rw [hv] at hw hwe
        exact .inl ⟨hw, by rw [hwe]⟩
      · rw [hv] at hw
        exact .inr hw
    · obtain ⟨_, hr⟩ := reads_stringBody u
      obtain ⟨_, hre⟩ := reads_stringBody (u.extend later)
      rw [hv] at hr
      exact .inr ⟨hr.failed hm.failed, hre.failed (hm.extend_failed later)⟩
  | case5 s c t hn hq hb cs v hv ih =>
    have he := next_extend h later
    rw [hn] at he
    rw [stringBody_plain he hq hb]
    rcases ih (h.next_some hn) with ⟨hw, hwe⟩ | hw
    · rw [hv] at hw hwe
      exact .inl ⟨hw, by rw [hwe]⟩
    · rw [hv] at hw
      exact .inr hw

/-- What is the same but for the failure being met or not is uniform. -/
theorem uniform_of_eq {α : Type} {a : α} (ht : t.Awaits d ∨ t.Met) : Uniform d later (a, t) (a, t.extend later) := by
  rcases ht with ht | hm
  · exact .inl ⟨ht, rfl⟩
  · exact .inr ⟨hm.failed, hm.extend_failed later⟩

theorem Awaits.lexeme (h : s.Awaits d) (c : Char) (later : List Delivery) :
    Uniform d later (s.lexeme c) ((s.extend later).lexeme c) := by
  unfold Scanner.lexeme
  split
  · exact .inl ⟨h, rfl⟩
  · split
    · rcases h.stringBody later with ⟨ht, he⟩ | hf
      · exact .inl ⟨ht, by rw [he]⟩
      · exact .inr hf
    · split
      · obtain ⟨ht, he⟩ := h.takeWhile isDigit later
        simp only [he]
        split <;> exact uniform_of_eq ht
      · split
        · obtain ⟨ht, he⟩ := h.takeWhile isWordPart later
          simp only [he]
          exact uniform_of_eq ht
        · exact .inl ⟨h, rfl⟩

/-! ## Tokens -/

theorem Awaits.token_none (h : s.Awaits d) (ht : s.token? = (none, t)) (later : List Delivery) :
    (t.Awaits d ∨ t.Met) ∧ (s.extend later).token? = (none, t.extend later) := by
  have hs := nextSolid_of_token ht
  obtain ⟨hn, he⟩ := h.nextSolid later
  rw [hs] at hn he
  refine ⟨hn.imp_right And.right, ?_⟩
  simp only [token?, he]

/-- A token that is read up to the failure is the same whatever comes later, and one in which the failure is met is read
in any case. -/
theorem Awaits.token_some (h : s.Awaits d) {token : Token} (ht : s.token? = (some token, t)) (later : List Delivery) :
    (t.Awaits d ∧ (s.extend later).token? = (some token, t.extend later)) ∨
    (t.failure ≠ none ∧ ∃ other u, (s.extend later).token? = (some other, u) ∧ u.failure ≠ none) := by
  obtain ⟨hn, he⟩ := h.nextSolid later
  unfold token? at ht ⊢
  cases hs : s.nextSolid with
  | mk found u =>
    rw [hs] at hn he ht
    cases found with
    | none => cases ht
    | some found =>
      obtain ⟨start, c⟩ := found
      have hu : u.Awaits d := hn.resolve_right (by simp)
      rw [he]
      dsimp only at ht ⊢
      have hl := hu.lexeme c later
      cases hx : u.lexeme c with
      | mk meaning v =>
        rw [hx] at ht hl
        cases ht
        rcases hl with ⟨hv, hve⟩ | ⟨hv, hve⟩
        · rw [hve]
          exact .inl ⟨hv, rfl⟩
        · exact .inr ⟨hv, _, _, rfl, hve⟩

/-! ## Runs -/

/-- **A failure between tokens stops the run**, and then what comes later is not touched. -/
theorem Undisturbed.run_extend (hu : s.Undisturbed) (h : s.Awaits d) (later : List Delivery) :
    (s.run.2.Awaits d ∨ s.run.2.Met) ∧ (s.extend later).run = (s.run.1, s.run.2.extend later) := by
  induction hu with
  | stop ht =>
    obtain ⟨hm, he⟩ := h.token_none ht later
    rw [run_stop ht, run_stop he]
    exact ⟨hm, rfl⟩
  | step ht hf _ ih =>
    obtain ⟨hw, he⟩ := (h.token_some ht later).resolve_right fun hfail => hfail.1 hf
    obtain ⟨hm, hr⟩ := ih hw
    rw [run_step ht, run_step he, hr]
    exact ⟨hm, rfl⟩

/-- A scanner that meets no failure inside a token, and one that does: it reads the token and goes on. -/
theorem undisturbed_or (s : Scanner) :
    s.Undisturbed ∨ ∃ taken t, Reads s taken t ∧ t.failure ≠ none ∧ s.run.2 = t.run.2 := by
  fun_induction Scanner.run s with
  | case1 s t ht => exact .inl (.stop ht)
  | case2 s token t ht tokens u hr ih =>
    obtain ⟨gap, r, tail, _, hst, _⟩ := reads_token ht
    cases hf : t.failure with
    | some message => exact .inr ⟨_, t, hst, by simp [hf], by rw [hr]⟩
    | none =>
      rcases ih with hu | ⟨taken, w, htw, hw, he⟩
      · exact .inl (.step ht hf hu)
      · rw [hr] at he
        exact .inr ⟨_, w, hst.trans htw, hw, he⟩

/-- What comes later does not help: a failure that is met inside a token is met there in any case. -/
theorem Awaits.undisturbed_of_extend (h : s.Awaits d) (hu : (s.extend later).Undisturbed) : s.Undisturbed := by
  generalize he : s.extend later = s' at hu
  induction hu generalizing s with
  | stop ht =>
    subst he
    cases hs : s.token? with
    | mk found u =>
      cases found with
      | none => exact .stop hs
      | some token =>
        rcases h.token_some hs later with ⟨_, hx⟩ | ⟨_, other, v, hx, _⟩
        · rw [hx] at ht
          cases ht
        · rw [hx] at ht
          cases ht
  | step ht hf _ ih =>
    subst he
    cases hs : s.token? with
    | mk found u =>
      cases found with
      | none => exact .stop hs
      | some token =>
        rcases h.token_some hs later with ⟨hu, hx⟩ | ⟨_, other, v, hx, hv⟩
        · rw [hx] at ht
          cases ht
          exact .step hs hu.healthy (ih hu rfl)
        · rw [hx] at ht
          cases ht
          exact absurd hf hv

/-! ## Behind the failure -/

/-- A scanner has not met the failure yet, or it has and then went on from where nothing was left. -/
theorem Reads.of_awaits {taken : List Symbol} (hr : Reads (s.extend later) taken t) (h : s.Awaits d) :
    (∃ u : Scanner, u.Awaits d ∧ t = u.extend later) ∨
    ∃ (w : Scanner) (rest : List Symbol), w.input = ⟨[], none, later⟩ ∧ Reads w rest t := by
  generalize he : s.extend later = s' at hr
  induction hr generalizing s with
  | refl => exact .inl ⟨s, h, he.symm⟩
  | look hp hr ih =>
    subst he
    rw [peek_extend h] at hp
    cases hs : s.peek with
    | mk o u =>
      rw [hs] at hp
      cases hp
      cases o with
      | some c => exact ih (h.peek_some hs) rfl
      | none =>
        rcases h.peek_none hs with hu | hm
        · exact ih hu rfl
        · exact .inr ⟨_, _, by rw [extend, hm.input_eq]; rfl, hr⟩
  | @take _ _ r _ _ hn _ ih =>
    subst he
    have hx := Input.next_extend h.input later
    cases hs : s.input.next with
    | mk answer input =>
      rw [hs] at hx
      have hn' := hx.symm.trans hn
      cases hn'
      exact ih (s := { s with input, position := s.position.advance r }) ⟨h.healthy, h.input.next_ok hs⟩ rfl
  | fault hn hr ih =>
    subst he
    rw [next_extend h] at hn
    cases hs : s.next with
    | mk o u =>
      rw [hs] at hn
      cases hn
      rcases h.next_none hs with hu | hm
      · exact ih hu rfl
      · exact .inr ⟨_, _, by rw [extend, hm.input_eq]; rfl, hr⟩

/-- Deliveries that were not used up on the way were not used. -/
theorem Reads.coming_eq {taken rest : List Symbol} (h : Reads s taken t) (h' : Reads t rest u)
    (he : u.input.coming = s.input.coming) : t.input.coming = s.input.coming :=
  h.coming_suffix.eq_of_length_le (he ▸ h'.coming_suffix.length_le)

/-- As long as no delivery is used no fault is pending. -/
theorem Reads.pending_eq {taken : List Symbol} (h : Reads s taken t) (hp : s.input.pending = none)
    (hc : s.input.coming ≠ []) (he : t.input.coming = s.input.coming) : t.input.pending = none := by
  induction h with
  | refl s => exact hp
  | @look s m _ _ _ hpeek hr ih =>
    have hm := (reads_peek hpeek).coming_eq hr he
    have hi : m.input = s.input.peek.2 := by rw [← input_peek, hpeek]
    refine ih ?_ (hm ▸ hc) (he.trans hm.symm)
    rw [hi] at hm ⊢
    exact Input.pending_peek hp hc hm
  | @take s _ r input _ hn hr ih =>
    have hm := (Reads.take hn (.refl _)).coming_eq hr he
    have hi : input = s.input.next.2 := by rw [hn]
    refine ih ?_ (hm ▸ hc) (he.trans hm.symm)
    dsimp only at hm ⊢
    rw [hi] at hm ⊢
    exact Input.pending_next hp hc hm
  | @fault s m _ _ hn hr ih =>
    have hm := (reads_next_none hn).coming_eq hr he
    have hi : m.input = s.input.next.2 := by rw [← input_next, hn]
    refine ih ?_ (hm ▸ hc) (he.trans hm.symm)
    rw [hi] at hm ⊢
    exact Input.pending_next hp hc hm

/-- A run uses a delivery, unless there is none or a fault is pending. -/
theorem coming_run (hp : s.input.pending = none) (hc : s.input.coming ≠ []) :
    s.run.2.input.coming ≠ s.input.coming := by
  intro he
  obtain ⟨taken, t, ht, hn⟩ := run_ends s
  have hcoming := ht.coming_eq (reads_next_none hn) he
  have hpending := ht.pending_eq hp hc hcoming
  unfold next at hn
  split at hn
  · cases hn
  · next hi =>
    have hrun := congrArg (fun r : Option Char × Scanner => r.2.input) hn
    rw [input_note] at hrun
    have hj := Input.coming_next_error hpending (hcoming ▸ hc) hi
    dsimp only at hrun
    rw [hrun] at hj
    exact hj (he.trans hcoming.symm)

/-- **A failure inside a token does not stop the run**: it goes on with what comes later. -/
theorem Awaits.coming_of_disturbed (h : s.Awaits d) (hu : ¬ s.Undisturbed) (hl : later ≠ []) :
    (s.extend later).run.2.input.coming <:+ later ∧ (s.extend later).run.2.input.coming ≠ later := by
  rcases undisturbed_or (s.extend later) with hu' | ⟨taken, t, ht, hf, hrun⟩
  · exact absurd (h.undisturbed_of_extend hu') hu
  rcases ht.of_awaits h with ⟨u, hu, rfl⟩ | ⟨w, rest, hw, hr⟩
  · exact absurd hu.healthy hf
  obtain ⟨more, hmore⟩ := reads_run t
  have hsuffix := hr.coming_suffix
  rw [hw] at hsuffix
  rw [hrun]
  refine ⟨hmore.coming_suffix.trans hsuffix, ?_⟩
  intro he
  have hwl : w.input.coming = later := by rw [hw]
  have ht' : t.input.coming = w.input.coming := hr.coming_eq hmore (he.trans hwl.symm)
  have hp := hr.pending_eq (by rw [hw]) (by rw [hwl]; exact hl) ht'
  exact coming_run hp (by rw [ht', hwl]; exact hl) (by rw [ht', hwl, he])

/-! ## What the tokens cover -/

/-- A token ends where the scanner stands. -/
theorem stop_of_token {token : Token} (h : s.token? = (some token, t)) : token.stop = t.position.offset := by
  obtain ⟨gap, r, tail, _, hr, hplace, hlength⟩ := reads_token h
  have hpos := hr.position_eq
  rw [List.foldl_append] at hpos
  have hle := Position.offset_le_foldl (gap.foldl Position.advance s.position) (r :: tail)
  rw [← hpos] at hle
  simp only [Token.stop, Token.start, hplace, hlength, Location.ofPosition, Option.elim_some, Int.toNat_natCast]
  omega

theorem Reads.offset_le {taken : List Symbol} (h : Reads s taken t) : s.position.offset ≤ t.position.offset := by
  rw [h.position_eq]
  exact Position.offset_le_foldl s.position taken

/-- No token reaches beyond the end of the run. -/
theorem stop_le_run (s : Scanner) : ∀ token ∈ s.run.1, token.stop ≤ s.run.2.position.offset := by
  fun_induction Scanner.run s with
  | case1 => simp
  | case2 s token t ht tokens u hr ih =>
    rw [hr] at ih
    intro other ho
    rcases List.mem_cons.1 ho with rfl | ho
    · obtain ⟨taken, hreads⟩ := reads_run t
      rw [hr] at hreads
      rw [stop_of_token ht]
      exact hreads.offset_le
    · exact ih other ho

/-- A token covers the last symbol of a run, unless it is blank. -/
theorem run_covers (s : Scanner) :
    ∃ taken, Reads s taken s.run.2 ∧ ∀ init r, taken = init ++ [r] → r.blank = false →
      ∃ token ∈ s.run.1, token.stop = s.run.2.position.offset := by
  fun_induction Scanner.run s with
  | case1 s t ht =>
    obtain ⟨gap, u, hg, hr, hn⟩ := reads_nextSolid_none (nextSolid_of_token ht)
    refine ⟨gap ++ [], hr.trans (reads_next_none hn), ?_⟩
    intro init r he hb
    have hmem : r ∈ gap := by
      rw [List.append_nil] at he
      rw [he]
      simp
    rw [hg r hmem] at hb
    cases hb
  | case2 s token t ht tokens u hr ih =>
    obtain ⟨gap, q, tail, _, hst, _⟩ := reads_token ht
    obtain ⟨taken, htu, hcover⟩ := ih
    rw [hr] at htu hcover
    refine ⟨_, hst.trans htu, ?_⟩
    intro init r he hb
    rcases List.eq_nil_or_concat taken with rfl | ⟨front, last, rfl⟩
    · refine ⟨token, List.mem_cons_self, ?_⟩
      rw [stop_of_token ht, htu.position_eq]
      rfl
    · have hlast : last = r := by
        rw [List.concat_eq_append, ← List.append_assoc] at he
        exact (List.append_inj' he rfl).2 |> List.singleton_inj.1
      obtain ⟨other, hmem, hstop⟩ := hcover front last (by simp) (hlast ▸ hb)
      exact ⟨other, List.mem_cons_of_mem _ hmem, hstop⟩

end Scanner

/-! ## The first failure -/

/-- A character whose sequence ends in an ASCII byte is that byte. -/
theorem Utf8.toNat_of_getLast_encode {c : Char} {b : UInt8} (h : (Utf8.encode c).getLast? = some b) (hb : b.toNat < 0x80) :
    c.toNat = b.toNat := by
  have hlast : (0x80 + c.toNat % 64).toUInt8.toNat = 0x80 + c.toNat % 64 := Utf8.toNat_toUInt8 (by omega)
  unfold Utf8.encode at h
  dsimp only at h
  split at h
  · next hc =>
    simp only [List.getLast?_singleton, Option.some.injEq] at h
    rw [← h, Utf8.toNat_toUInt8 (by omega)]
  · split at h
    · simp only [List.getLast?_cons_cons, List.getLast?_singleton, Option.some.injEq] at h
      rw [← h] at hb
      omega
    · split at h <;>
      · simp only [List.getLast?_cons_cons, List.getLast?_singleton, Option.some.injEq] at h
        rw [← h] at hb
        omega

/-- Symbols whose text ends in a semicolon do not end in a blank. -/
theorem Symbol.exists_last_of_semicolon {taken : List Symbol} {front : Bytes}
    (h : Symbol.text taken = front ++ ascii ";") : ∃ init r, taken = init ++ [r] ∧ r.blank = false := by
  rcases List.eq_nil_or_concat taken with rfl | ⟨init, r, rfl⟩
  · simp [ascii] at h
  · refine ⟨init, r, List.concat_eq_append .., ?_⟩
    rw [List.concat_eq_append, Symbol.text_append, Symbol.text_cons, Symbol.text_nil, List.append_nil] at h
    have hlast : r.bytes.getLast? = some 0x3B := by
      have hl := congrArg List.getLast? h
      rw [List.getLast?_append, List.getLast?_append, List.getLast?_eq_some_getLast r.bytes_ne_nil] at hl
      rw [List.getLast?_eq_some_getLast r.bytes_ne_nil]
      exact hl
    cases r with
    | stray b => rfl
    | char c =>
      have hc : c.toNat = 0x3B := Utf8.toNat_of_getLast_encode hlast (by decide)
      simp [Symbol.blank, isBlank, hc]

/-- Tokens cover only what was delivered. -/
theorem Scanner.stop_le_incoming (file : Bytes) (script : List Delivery) :
    ∀ t ∈ (Scanner.ofDeliveries file script).run.1, t.stop ≤ (Input.incoming script).length := by
  intro t ht
  have hstop := stop_le_run _ t ht
  obtain ⟨taken, hreads⟩ := reads_run (ofDeliveries file script)
  obtain ⟨ds, ha⟩ := (account_ofDeliveries file script).reads hreads
  have hbytes := congrArg List.length ha.input.bytes_eq
  have hscript := congrArg (fun ds => (Input.incoming ds).length) ha.input.script_eq
  rw [ha.position_eq, Position.offset_past] at hstop
  simp only [Input.incoming_append, List.length_append] at hbytes hscript
  omega

/-- A token covers a semicolon that is the last byte to be delivered and is taken. -/
theorem Scanner.exists_token_of_semicolon {file : Bytes} {front : List Delivery}
    (h : (Scanner.ofDeliveries file (front ++ [⟨ascii ";", none⟩])).run.2.input.coming = []) :
    ∃ t ∈ (Scanner.ofDeliveries file (front ++ [⟨ascii ";", none⟩])).run.1,
      t.stop = (Input.incoming front).length + 1 := by
  have hstart := account_ofDeliveries file (front ++ [⟨ascii ";", none⟩])
  obtain ⟨taken, hreads, hcover⟩ := run_covers (ofDeliveries file (front ++ [⟨ascii ";", none⟩]))
  obtain ⟨ds, ha⟩ := hstart.reads hreads
  have hbytes := ha.input.bytes_eq
  have hscript := ha.input.script_eq
  rw [hstart.drained_run.1, List.append_nil, List.nil_append, List.nil_append] at hbytes
  rw [h, List.append_nil, List.nil_append] at hscript
  have htext : Symbol.text taken = Input.incoming front ++ ascii ";" := by
    rw [← hbytes, ← hscript, Input.incoming_append, Input.incoming_cons, Input.incoming_nil, List.append_nil]
  obtain ⟨init, r, hlast, hr⟩ := Symbol.exists_last_of_semicolon htext
  obtain ⟨token, hmem, hstop⟩ := hcover init r hlast hr
  refine ⟨token, hmem, ?_⟩
  rw [hstop, ha.position_eq, Position.offset_past, List.nil_append, htext, List.length_append]
  rfl

/-- **A failure stops the scan where it is met between tokens, and only there.** Let `d` bring the first failure of some
deliveries. That the tokens of a run are the same whatever comes behind `d`, and are made of bytes up to `d` alone, is
true just if the scanner of the deliveries up to `d` meets no failure inside a token. -/
theorem failure_stops_scan_iff (file : Bytes) (before : List Delivery) (d : Delivery) (after : List Delivery)
    (hb : Input.failures before = []) (hd : Input.failures (before ++ [d]) ≠ []) :
    (∀ later,
      (Scanner.ofDeliveries file (before ++ d :: later)).run.1 =
        (Scanner.ofDeliveries file (before ++ d :: after)).run.1 ∧
      ∀ t ∈ (Scanner.ofDeliveries file (before ++ d :: later)).run.1,
        t.stop ≤ (Input.incoming (before ++ [d])).length) ↔
    (Scanner.ofDeliveries file (before ++ [d])).Undisturbed := by
  have hs : (Scanner.ofDeliveries file (before ++ [d])).Awaits d := ⟨rfl, .inl ⟨before, rfl, rfl, hb, hd⟩⟩
  have hext (later : List Delivery) : Scanner.ofDeliveries file (before ++ d :: later) =
      (Scanner.ofDeliveries file (before ++ [d])).extend later := by
    simp [Scanner.ofDeliveries, Scanner.extend, Input.extend]
  constructor
  · intro h
    by_contra hu
    -- a semicolon behind the failure is taken, and a token covers it
    let semicolon : Delivery := ⟨ascii ";", none⟩
    obtain ⟨hsuffix, hne⟩ := hs.coming_of_disturbed hu (show [semicolon] ≠ [] by simp)
    have hnil : (Scanner.ofDeliveries file (before ++ [d] ++ [semicolon])).run.2.input.coming = [] := by
      rw [List.append_assoc, List.singleton_append, hext]
      rcases List.suffix_cons_iff.1 hsuffix with he | he
      · exact absurd he hne
      · exact List.suffix_nil.1 he
    obtain ⟨token, hmem, hstop⟩ := Scanner.exists_token_of_semicolon hnil
    rw [List.append_assoc, List.singleton_append] at hmem
    have hle := (h [semicolon]).2 token hmem
    omega
  · intro hu later
    obtain ⟨_, hlater⟩ := hu.run_extend hs later
    obtain ⟨_, hafter⟩ := hu.run_extend hs after
    rw [hext later, hext after, hlater, hafter]
    exact ⟨rfl, Scanner.stop_le_incoming file (before ++ [d])⟩

/-- Behind a blank the failure stops the scan, and in a number it does not. -/
theorem failure_stops_scan_iff_blank :
    let boom : Option Fault := some (.failed (ascii "boom"))
    let space : Delivery := ⟨ascii "1 ", boom⟩
    let digit : Delivery := ⟨ascii "1", boom⟩
    Input.failures [] = [] ∧ Input.failures ([] ++ [space]) ≠ [] ∧ Input.failures ([] ++ [digit]) ≠ [] ∧
    (Scanner.ofDeliveries [] [space]).Undisturbed ∧ ¬ (Scanner.ofDeliveries [] [digit]).Undisturbed ∧
    (∀ later, (Scanner.ofDeliveries [] ([] ++ space :: later)).run.1 =
      (Scanner.ofDeliveries [] ([] ++ space :: [])).run.1) ∧
    ¬ ∀ later, (Scanner.ofDeliveries [] ([] ++ digit :: later)).run.1 =
        (Scanner.ofDeliveries [] ([] ++ digit :: [])).run.1 ∧
      ∀ t ∈ (Scanner.ofDeliveries [] ([] ++ digit :: later)).run.1, t.stop ≤ 1 := by
  intro boom space digit
  have hspace : (Scanner.ofDeliveries [] [space]).Undisturbed := by
    have h₁ : (Scanner.ofDeliveries [] [space]).token? = (some ⟨.number, ascii "1", some ⟨[], 1, 1, 0⟩, 1⟩,
        ⟨[], ⟨ascii " ", boom, []⟩, ⟨1, 2, 1⟩, none⟩) := by decide +kernel
    have h₂ : (⟨[], ⟨ascii " ", boom, []⟩, ⟨1, 2, 1⟩, none⟩ : Scanner).token? =
        (none, ⟨[], ⟨[], none, []⟩, ⟨1, 3, 2⟩, some (ascii "boom")⟩) := by decide +kernel
    exact .step h₁ rfl (.stop h₂)
  have hdigit : ¬ (Scanner.ofDeliveries [] [digit]).Undisturbed := by
    have h₁ : (Scanner.ofDeliveries [] [digit]).token? = (some ⟨.number, ascii "1", some ⟨[], 1, 1, 0⟩, 1⟩,
        ⟨[], ⟨[], none, []⟩, ⟨1, 2, 1⟩, some (ascii "boom")⟩) := by decide +kernel
    intro h
    cases h with
    | stop ht => rw [h₁] at ht; cases ht
    | step ht hf _ => rw [h₁] at ht; cases ht; cases hf
  have hs : Input.failures ([] ++ [space]) ≠ [] := by decide
  have hd : Input.failures ([] ++ [digit]) ≠ [] := by decide
  refine ⟨rfl, hs, hd, hspace, hdigit, ?_, ?_⟩
  · intro later
    exact ((failure_stops_scan_iff [] [] space [] rfl hs).2 hspace later).1
  · intro h
    exact hdigit ((failure_stops_scan_iff [] [] digit [] rfl hd).1 h)

end CallLang
