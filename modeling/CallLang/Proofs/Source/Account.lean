import CallLang.Proofs.Text.Symbols
import CallLang.Source.Input

/-!
# The books of an input

Deliveries may bring any bytes and any faults. `faults` are the faults that they raise, in order: each delivery may end
in one, and every `patience` empty deliveries in a row raise a stall. `failures` are those of them that are not ends.

An input keeps its books: what was delivered is what was taken and what is buffered, and the first failure delivered is
the one that was noted or, with none noted, the one that is pending (`Input.Account`). Waiting keeps the books
(`Account.settle`): it takes deliveries up to the first fault (`settle_delivers`), so no second fault arrives while one
is pending.

- `Account.next_ok`, `Account.next_error`: taking a symbol moves its bytes to what was taken, and a fault is reported
  only when nothing is buffered;
- `Account.peek_ok`, `Account.peek_error`: the same for looking, which takes nothing.
-/

namespace CallLang

/-- The message of a fault that is not the end. -/
def Fault.message? : Fault → Option Bytes
  | .ended => none
  | .failed message => some message

namespace Input

@[simp] theorem incoming_nil : incoming [] = [] :=
  rfl

@[simp] theorem incoming_cons (d : Delivery) (ds : List Delivery) : incoming (d :: ds) = d.data ++ incoming ds :=
  rfl

@[simp] theorem incoming_append (a b : List Delivery) : incoming (a ++ b) = incoming a ++ incoming b :=
  List.flatMap_append

/-! ## The faults of deliveries -/

/-- The fault that a delivery raises after `idle` empty ones, and the number of empty ones in a row then. -/
def hear (idle : Nat) (d : Delivery) : Option Fault × Nat :=
  match d.data, d.fault with
  | _, some fault => (some fault, 0)
  | [], none => if idle + 1 = patience then (some .stalled, 0) else (none, idle + 1)
  | _ :: _, none => (none, 0)

/-- The faults that deliveries raise after `idle` empty ones. -/
def faults (idle : Nat) : List Delivery → List Fault
  | [] => []
  | d :: later => (hear idle d).1.toList ++ faults (hear idle d).2 later

/-- The number of empty deliveries in a row at the end of deliveries that follow `idle` empty ones. -/
def idling (idle : Nat) : List Delivery → Nat
  | [] => idle
  | d :: later => idling (hear idle d).2 later

/-- The messages of the failures that deliveries bring. -/
def failures (delivered : List Delivery) : List Bytes :=
  (faults 0 delivered).filterMap Fault.message?

theorem faults_append (idle : Nat) (a b : List Delivery) :
    faults idle (a ++ b) = faults idle a ++ faults (idling idle a) b := by
  induction a generalizing idle with
  | nil => rfl
  | cons d a ih => simp only [List.cons_append, faults, idling, ih, List.append_assoc]

theorem idling_append (idle : Nat) (a b : List Delivery) : idling idle (a ++ b) = idling (idling idle a) b := by
  induction a generalizing idle with
  | nil => rfl
  | cons d a ih => simp only [List.cons_append, idling, ih]

/-- A delivery that raises a fault starts the count anew. -/
theorem hear_some {idle : Nat} {d : Delivery} {fault : Fault} (h : (hear idle d).1 = some fault) :
    (hear idle d).2 = 0 := by
  unfold hear at h ⊢
  split
  · rfl
  · split
    · rfl
    · simp_all
  · rfl

/-- Only an empty delivery is counted. -/
theorem data_eq_nil_or_hear (idle : Nat) (d : Delivery) : d.data = [] ∨ (hear idle d).2 = 0 := by
  unfold hear
  split
  · exact .inr rfl
  · next hd _ => exact .inl hd
  · exact .inr rfl

/-- A fault with which a delivery ends is raised. -/
theorem mem_faults {idle : Nat} {ds : List Delivery} {d : Delivery} {fault : Fault} (hd : d ∈ ds)
    (hf : d.fault = some fault) : fault ∈ faults idle ds := by
  induction ds generalizing idle with
  | nil => cases hd
  | cons e ds ih =>
    rw [faults, List.mem_append]
    rcases List.mem_cons.1 hd with rfl | hd
    · refine .inl ?_
      simp [hear, hf]
    · exact .inr (ih hd)

/-- No delivery fails where no failure is heard. -/
theorem fault_of_failures_eq_nil {ds : List Delivery} (h : failures ds = []) :
    ∀ d ∈ ds, d.fault = none ∨ d.fault = some .ended := by
  intro d hd
  cases hf : d.fault with
  | none => exact .inl rfl
  | some fault =>
    cases fault with
    | ended => exact .inr rfl
    | failed message =>
      have hm : message ∈ failures ds := List.mem_filterMap.2 ⟨_, mem_faults hd hf, rfl⟩
      rw [h] at hm
      cases hm

/-! ## Waiting -/

/-- One delivery of a wait: it is the last one if it raises a fault. -/
theorem fill_cons {buffer : Bytes} (hs : Utf8.settled buffer = false) (idle : Nat) (d : Delivery)
    (coming : List Delivery) :
    fill buffer idle (d :: coming) =
      match hear idle d with
      | (some fault, _) => ⟨buffer ++ d.data, some fault, coming⟩
      | (none, idle) => fill (buffer ++ d.data) idle coming := by
  obtain ⟨data, fault⟩ := d
  rw [fill, if_neg (by simp [hs])]
  cases fault with
  | some fault => cases data <;> rfl
  | none =>
    cases data with
    | cons b data => rfl
    | nil =>
      simp only [hear]
      split <;> simp

/-- What a wait has taken when it ends at `j`: deliveries `ds`, whose only fault is pending then. At the end of all
deliveries an end is pending that none of them has raised. -/
structure Delivers (idle : Nat) (buffer : Bytes) (coming ds : List Delivery) (j : Input) : Prop where
  coming_eq : coming = ds ++ j.coming
  buffer_eq : j.buffer = buffer ++ incoming ds
  faults_eq : (faults idle ds = j.pending.toList ∧ idling idle ds = 0) ∨
    (faults idle ds = [] ∧ j.pending = some .ended ∧ j.coming = [])

theorem fill_delivers (buffer : Bytes) (idle : Nat) (coming : List Delivery)
    (h : idle = 0 ∨ Utf8.settled buffer = false) : ∃ ds, Delivers idle buffer coming ds (fill buffer idle coming) := by
  induction coming generalizing buffer idle with
  | nil =>
    rw [fill]
    split
    · next hs =>
      refine ⟨[], rfl, by simp, .inl ⟨rfl, ?_⟩⟩
      exact h.resolve_right (by simp [hs])
    · exact ⟨[], rfl, by simp, .inr ⟨rfl, rfl, rfl⟩⟩
  | cons d coming ih =>
    cases hs : Utf8.settled buffer with
    | true =>
      rw [fill_of_settled hs]
      refine ⟨[], rfl, by simp, .inl ⟨rfl, ?_⟩⟩
      exact h.resolve_right (by simp [hs])
    | false =>
      rw [fill_cons hs]
      cases hh : hear idle d with
      | mk fault idle' =>
        have h₁ : (hear idle d).1 = fault := by rw [hh]
        have h₂ : (hear idle d).2 = idle' := by rw [hh]
        cases fault with
        | some fault =>
          refine ⟨[d], rfl, by simp, .inl ⟨?_, ?_⟩⟩
          · simp [faults, h₁]
          · exact hear_some h₁
        | none =>
          -- the count goes on only while the buffer stays as it is
          have hnext : idle' = 0 ∨ Utf8.settled (buffer ++ d.data) = false := by
            rcases data_eq_nil_or_hear idle d with hd | hz
            · exact .inr (by rw [hd, List.append_nil, hs])
            · exact .inl (h₂ ▸ hz)
          obtain ⟨ds, hc, hb, hf⟩ := ih (buffer ++ d.data) idle' hnext
          refine ⟨d :: ds, by rw [List.cons_append, ← hc], by rw [hb]; simp, ?_⟩
          simpa [faults, idling, h₁, h₂] using hf

theorem settle_delivers {i : Input} (h : i.pending = none) : ∃ ds, Delivers 0 i.buffer i.coming ds i.settle := by
  rw [settle, h]
  exact fill_delivers i.buffer 0 i.coming (.inl rfl)

/-- Waiting uses deliveries from the front. -/
theorem coming_fill_suffix (buffer : Bytes) (idle : Nat) (coming : List Delivery) :
    (fill buffer idle coming).coming <:+ coming := by
  induction coming generalizing buffer idle with
  | nil =>
    rw [fill]
    split <;> exact List.suffix_refl _
  | cons d coming ih =>
    rw [fill]
    split
    · exact List.suffix_refl _
    · split
      · exact List.suffix_cons d coming
      · split
        · exact List.suffix_cons d coming
        · exact (ih _ _).trans (List.suffix_cons d coming)
      · exact (ih _ _).trans (List.suffix_cons d coming)

theorem coming_settle_suffix (i : Input) : i.settle.coming <:+ i.coming := by
  unfold settle
  split
  · exact List.suffix_refl _
  · exact coming_fill_suffix i.buffer 0 i.coming

theorem coming_next (i : Input) : i.next.2.coming = i.settle.coming := by
  unfold next
  dsimp only
  split <;> rfl

theorem coming_peek (i : Input) : i.peek.2.coming = i.settle.coming := by
  unfold peek
  dsimp only
  split <;> rfl

/-! ## The books -/

/-- The books of an input: of `script` the deliveries `delivered` have arrived, the bytes `taken` have been taken from
them, and `noted` is the first failure that was reported. -/
structure Account (script delivered : List Delivery) (taken : Bytes) (noted : Option Bytes) (i : Input) : Prop where
  script_eq : script = delivered ++ i.coming
  bytes_eq : incoming delivered = taken ++ i.buffer
  failure_eq : noted.or (i.pending.bind Fault.message?) = (failures delivered).head?
  /-- The next wait counts empty deliveries from zero, as the deliveries so far do. -/
  level : idling 0 delivered = 0 ∨ i.coming = []

namespace Account

variable {script delivered : List Delivery} {taken : Bytes} {noted : Option Bytes} {i j : Input}

theorem start (script : List Delivery) : Account script [] [] none { coming := script } where
  script_eq := rfl
  bytes_eq := rfl
  failure_eq := rfl
  level := .inl rfl

/-- Waiting keeps the books. -/
theorem settle (h : Account script delivered taken noted i) :
    ∃ more, Account script (delivered ++ more) taken noted i.settle := by
  cases hp : i.pending with
  | some fault =>
    have hs : i.settle = i := by rw [Input.settle, hp]
    exact ⟨[], by rw [hs, List.append_nil]; exact h⟩
  | none =>
    obtain ⟨ds, hc, hb, hf⟩ := settle_delivers hp
    have hnoted : noted = (failures delivered).head? := by simpa [hp] using h.failure_eq
    -- the faults of the new deliveries are counted from zero, unless there are none
    have hsplit : failures (delivered ++ ds) = failures delivered ++ failures ds ∧
        idling 0 (delivered ++ ds) = idling 0 ds ∨ ds = [] ∧ i.settle.coming = [] := by
      rcases h.level with hl | hl
      · refine .inl ⟨?_, ?_⟩
        · rw [failures, failures, failures, faults_append, hl, List.filterMap_append]
        · rw [idling_append, hl]
      · rw [hl] at hc
        exact .inr (List.append_eq_nil_iff.1 hc.symm)
    refine ⟨ds, ?_, ?_, ?_, ?_⟩
    · rw [h.script_eq, hc, List.append_assoc]
    · rw [hb, incoming_append, h.bytes_eq, List.append_assoc]
    · rcases hsplit with ⟨hsplit, _⟩ | ⟨rfl, hn⟩
      · rw [hsplit, List.head?_append, ← hnoted]
        congr 1
        rcases hf with ⟨hf, _⟩ | ⟨hf, hp', _⟩
        · rw [failures, hf]
          cases i.settle.pending with
          | none => rfl
          | some fault => cases fault <;> rfl
        · rw [failures, hf, hp']
          rfl
      · rw [List.append_nil, ← hnoted]
        rcases hf with ⟨hf, _⟩ | ⟨_, hp', _⟩
        · rw [Option.toList_eq_nil_iff.1 hf.symm]
          simp
        · rw [hp']
          simp [Fault.message?]
    · rcases hsplit with ⟨_, hi⟩ | ⟨_, hn⟩
      · rcases hf with ⟨_, hz⟩ | ⟨_, _, hn⟩
        · exact .inl (hi.trans hz)
        · exact .inr hn
      · exact .inr hn

/-- The books after the pending fault was reported. -/
theorem report (h : Account script delivered taken noted i) :
    Account script delivered taken (noted.or i.report.1.message?) i.report.2 where
  script_eq := h.script_eq
  bytes_eq := h.bytes_eq
  failure_eq := by
    have hr : i.report.1.message? = i.pending.bind Fault.message? := by
      unfold Input.report
      cases i.pending <;> rfl
    rw [hr, ← h.failure_eq]
    simp [Input.report]
  level := h.level

theorem next_ok (h : Account script delivered taken noted i) {r : Symbol} (hn : i.next = (.ok r, j)) :
    ∃ more, Account script (delivered ++ more) (taken ++ r.bytes) noted j := by
  obtain ⟨more, hs⟩ := h.settle
  unfold Input.next at hn
  dsimp only at hn
  split at hn
  · next rest hd =>
    cases hn
    refine ⟨more, hs.script_eq, ?_, hs.failure_eq, hs.level⟩
    rw [hs.bytes_eq, Utf8.bytes_of_decode hd, List.append_assoc]
  · cases hn

theorem next_error (h : Account script delivered taken noted i) {fault : Fault} (hn : i.next = (.error fault, j)) :
    ∃ more, Account script (delivered ++ more) taken (noted.or fault.message?) j ∧ j.buffer = [] ∧ j.pending = none := by
  obtain ⟨more, hs⟩ := h.settle
  unfold Input.next at hn
  dsimp only at hn
  split at hn
  · cases hn
  · next hd =>
    cases hn
    have hb := Utf8.decode_eq_none_iff.1 hd
    exact ⟨more, hs.report, hb, rfl⟩

theorem peek_ok (h : Account script delivered taken noted i) {r : Symbol} (hn : i.peek = (.ok r, j)) :
    ∃ more, Account script (delivered ++ more) taken noted j := by
  obtain ⟨more, hs⟩ := h.settle
  unfold Input.peek at hn
  dsimp only at hn
  split at hn
  · cases hn
    exact ⟨more, hs⟩
  · cases hn

theorem peek_error (h : Account script delivered taken noted i) {fault : Fault} (hn : i.peek = (.error fault, j)) :
    ∃ more, Account script (delivered ++ more) taken (noted.or fault.message?) j := by
  obtain ⟨more, hs⟩ := h.settle
  unfold Input.peek at hn
  dsimp only at hn
  split at hn
  · cases hn
  · cases hn
    exact ⟨more, hs.report⟩

end Account

end Input

end CallLang
