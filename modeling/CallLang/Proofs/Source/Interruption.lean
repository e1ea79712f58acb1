import CallLang.Proofs.Source.Account

/-!
# Deliveries up to the first failure

An input whose last delivery brings the first failure cannot pass it unnoticed: until the failure is reported, all that
the input does is the same whatever comes behind that delivery. `Awaits d i` says that the failure of `d`, the last
delivery of `i`, is still to come or pending, and `extend` puts more deliveries behind it.

- `settle_extend`, `next_extend`, `peek_extend`: what comes later changes nothing yet;
- `Awaits.next_error`, `Awaits.peek_error`: a fault that is reported is an end, or it is the failure, and then nothing of
  what came up to it is left.
-/

namespace CallLang.Input

/-- An input with more deliveries behind those that come. -/
def extend (later : List Delivery) (i : Input) : Input :=
  { i with coming := i.coming ++ later }

/-- The last delivery is `d`, it brings the first failure, and this failure has not been reported. -/
def Awaits (d : Delivery) (i : Input) : Prop :=
  (∃ before, i.coming = before ++ [d] ∧ i.pending.bind Fault.message? = none ∧ failures before = [] ∧
    failures (before ++ [d]) ≠ []) ∨
  (i.coming = [] ∧ ∃ message, i.pending = some (.failed message))

variable {d : Delivery} {i j : Input} {later : List Delivery}

/-! ## Waiting -/

/-- A wait ends at the failure at the latest, so it does not see what comes later. -/
theorem fill_awaits {before : List Delivery} {buffer : Bytes} {idle : Nat}
    (hb : (faults idle before).filterMap Fault.message? = [])
    (hd : (faults idle (before ++ [d])).filterMap Fault.message? ≠ [])
    (hi : idle = 0 ∨ Utf8.settled buffer = false) :
    (fill buffer idle (before ++ [d])).Awaits d ∧
      ∀ later, fill buffer idle (before ++ [d] ++ later) = (fill buffer idle (before ++ [d])).extend later := by
  cases hs : Utf8.settled buffer with
  | true =>
    have hz : idle = 0 := hi.resolve_right (by simp [hs])
    subst hz
    refine ⟨?_, fun later => ?_⟩
    · rw [fill_of_settled hs]
      exact .inl ⟨before, rfl, rfl, hb, hd⟩
    · rw [fill_of_settled hs, fill_of_settled hs]
      rfl
  | false =>
    induction before generalizing buffer idle with
    | nil =>
      simp only [List.nil_append, List.cons_append, fill_cons hs]
      cases hh : hear idle d with
      | mk fault idle' =>
        cases fault with
        | some fault =>
          refine ⟨.inr ⟨rfl, ?_⟩, fun later => rfl⟩
          cases fault with
          | ended => simp [faults, hh, Fault.message?] at hd
          | failed message => exact ⟨message, rfl⟩
        | none => simp [faults, hh] at hd
    | cons e before ih =>
      simp only [List.cons_append, fill_cons hs]
      cases hh : hear idle e with
      | mk fault idle' =>
        simp only [List.cons_append, faults, hh, List.filterMap_append, List.append_eq_nil_iff] at hb hd
        rw [hb.1, List.nil_append] at hd
        cases fault with
        | some fault =>
          have hz : idle' = 0 := by
            have := hear_some (show (hear idle e).1 = some fault by rw [hh])
            rwa [hh] at this
          subst hz
          refine ⟨.inl ⟨before, rfl, ?_, hb.2, hd⟩, fun later => rfl⟩
          cases fault with
          | ended => rfl
          | failed message => simp [Fault.message?] at hb
        | none =>
          cases hs' : Utf8.settled (buffer ++ e.data) with
          | false => exact ih hb.2 hd (.inr hs') hs'
          | true =>
            -- the buffer has changed, so the count is at zero
            have hz : idle' = 0 := by
              rcases data_eq_nil_or_hear idle e with he | hz
              · rw [he, List.append_nil, hs] at hs'
                cases hs'
              · rwa [hh] at hz
            subst hz
            simp only [fill_of_settled hs']
            exact ⟨.inl ⟨before, rfl, rfl, hb.2, hd⟩, fun later => rfl⟩

theorem Awaits.settle (h : i.Awaits d) : i.settle.Awaits d := by
  unfold Input.settle
  split
  · exact h
  · next hp =>
    rcases h with ⟨before, hc, _, hb, hd⟩ | ⟨_, message, hm⟩
    · rw [hc]
      exact (fill_awaits hb hd (.inl rfl)).1
    · rw [hp] at hm
      cases hm

theorem settle_extend (h : i.Awaits d) (later : List Delivery) : (i.extend later).settle = i.settle.extend later := by
  unfold Input.settle
  split
  · next hp =>
    have hp' : i.pending = some _ := hp
    rw [hp']
  · next hp =>
    have hp' : i.pending = none := hp
    rw [hp']
    rcases h with ⟨before, hc, _, hb, hd⟩ | ⟨_, message, hm⟩
    · have hfill : fill i.buffer 0 (before ++ [d] ++ later) = (fill i.buffer 0 (before ++ [d])).extend later :=
        (fill_awaits hb hd (.inl rfl)).2 later
      rw [← hc] at hfill
      exact hfill
    · rw [hp'] at hm
      cases hm

/-! ## Taking and looking -/

theorem next_extend (h : i.Awaits d) (later : List Delivery) :
    (i.extend later).next = (i.next.1, i.next.2.extend later) := by
  unfold next
  rw [settle_extend h]
  dsimp only [extend]
  split <;> rfl

theorem peek_extend (h : i.Awaits d) (later : List Delivery) :
    (i.extend later).peek = (i.peek.1, i.peek.2.extend later) := by
  unfold peek
  rw [settle_extend h]
  dsimp only [extend]
  split <;> rfl

namespace Awaits

/-- Bytes that are taken from the buffer do not matter. -/
theorem drop (h : i.Awaits d) (rest : Bytes) : Awaits d { i with buffer := rest } :=
  h

/-- A fault that is reported is an end, or it is the failure. -/
theorem report (h : i.Awaits d) (hb : i.buffer = []) :
    (i.report.1 = .ended ∧ i.report.2.Awaits d) ∨
      ((∃ message, i.report.1 = .failed message) ∧ i.report.2 = ⟨[], none, []⟩) := by
  rcases h with ⟨before, hc, hp, hf, hd⟩ | ⟨hc, message, hm⟩
  · refine .inl ⟨?_, .inl ⟨before, hc, rfl, hf, hd⟩⟩
    unfold Input.report
    cases hi : i.pending with
    | none => rfl
    | some fault =>
      cases fault with
      | ended => rfl
      | failed message => simp [hi, Fault.message?] at hp
  · refine .inr ⟨⟨message, ?_⟩, ?_⟩
    · simp [Input.report, hm]
    · simp [Input.report, hb, hc]

theorem next_ok (h : i.Awaits d) {r : Symbol} (hn : i.next = (.ok r, j)) : j.Awaits d := by
  unfold Input.next at hn
  dsimp only at hn
  split at hn
  · cases hn
    exact h.settle.drop _
  · cases hn

theorem next_error (h : i.Awaits d) {fault : Fault} (hn : i.next = (.error fault, j)) :
    (fault = .ended ∧ j.Awaits d) ∨ ((∃ message, fault = .failed message) ∧ j = ⟨[], none, []⟩) := by
  unfold Input.next at hn
  dsimp only at hn
  split at hn
  · cases hn
  · next hd =>
    cases hn
    exact h.settle.report (Utf8.decode_eq_none_iff.1 hd)

theorem peek_ok (h : i.Awaits d) {r : Symbol} (hn : i.peek = (.ok r, j)) : j.Awaits d := by
  unfold Input.peek at hn
  dsimp only at hn
  split at hn
  · cases hn
    exact h.settle
  · cases hn

theorem peek_error (h : i.Awaits d) {fault : Fault} (hn : i.peek = (.error fault, j)) :
    (fault = .ended ∧ j.Awaits d) ∨ ((∃ message, fault = .failed message) ∧ j = ⟨[], none, []⟩) := by
  unfold Input.peek at hn
  dsimp only at hn
  split at hn
  · cases hn
  · next hd =>
    cases hn
    exact h.settle.report (Utf8.decode_eq_none_iff.1 hd)

end Awaits

/-! ## After the failure -/

/-- A wait that finds a delivery and takes none raises no fault. -/
theorem pending_fill {buffer : Bytes} {idle : Nat} {coming : List Delivery} (hc : coming ≠ [])
    (h : (fill buffer idle coming).coming = coming) : (fill buffer idle coming).pending = none := by
  cases hs : Utf8.settled buffer with
  | true => rw [fill_of_settled hs]
  | false =>
    cases coming with
    | nil => exact absurd rfl hc
    | cons d coming =>
      have hsuffix : (fill buffer idle (d :: coming)).coming <:+ coming := by
        rw [fill_cons hs]
        split
        · exact List.suffix_refl _
        · exact coming_fill_suffix _ _ _
      rw [h] at hsuffix
      have := hsuffix.length_le
      simp only [List.length_cons] at this
      omega

theorem pending_settle (hp : i.pending = none) (hc : i.coming ≠ []) (h : i.settle.coming = i.coming) :
    i.settle.pending = none := by
  unfold settle at h ⊢
  rw [hp] at h ⊢
  exact pending_fill hc h

theorem pending_next (hp : i.pending = none) (hc : i.coming ≠ []) (h : i.next.2.coming = i.coming) :
    i.next.2.pending = none := by
  rw [coming_next] at h
  unfold next
  dsimp only
  split
  · exact pending_settle hp hc h
  · rfl

theorem pending_peek (hp : i.pending = none) (hc : i.coming ≠ []) (h : i.peek.2.coming = i.coming) :
    i.peek.2.pending = none := by
  rw [coming_peek] at h
  unfold peek
  dsimp only
  split
  · exact pending_settle hp hc h
  · rfl

/-- A fault is reported only after a delivery was used, unless there is none or one was pending. -/
theorem coming_next_error (hp : i.pending = none) (hc : i.coming ≠ []) {fault : Fault} (h : i.next = (.error fault, j)) :
    j.coming ≠ i.coming := by
  intro he
  have hs : i.settle.coming = i.coming := by rw [← coming_next, h, he]
  have hpend := pending_settle hp hc hs
  have hsettled : Utf8.settled i.settle.buffer = true := by
    unfold settle at hpend ⊢
    rw [hp] at hpend ⊢
    exact settled_fill _ _ _ hpend
  unfold next at h
  dsimp only at h
  split at h
  · cases h
  · next hd =>
    rw [Utf8.decode_eq_none_iff.1 hd, Utf8.not_settled_nil] at hsettled
    cases hsettled

end CallLang.Input
