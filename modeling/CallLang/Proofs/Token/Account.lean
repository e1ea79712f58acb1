import CallLang.Proofs.Token.Traces

/-!
# The books of a scanner

A scanner keeps the books of its input over every sequence of looking and taking (`Account.reads`), so over every run
and over any number of runs (`account_after`): the bytes delivered are those of the symbols taken and those buffered,
and the failure that the scanner remembers is the first one delivered, unless that one is still pending. At the end of a
run nothing is left over: the run ends with the report of a fault, which is made when no byte is buffered and leaves no
fault pending (`drained_run`).

A failure that is remembered stays (`Reads.failure_stays`).
-/

namespace CallLang.Scanner

/-- The books of a scanner: of `script` the deliveries `delivered` have arrived, and the symbols `taken` have been taken
from them. -/
structure Account (script delivered : List Delivery) (taken : List Symbol) (s : Scanner) : Prop where
  input : s.input.Account script delivered (Symbol.text taken) s.failure
  position_eq : s.position = .past taken

variable {script delivered : List Delivery} {taken more : List Symbol} {s t : Scanner}

theorem account_ofDeliveries (file : Bytes) (script : List Delivery) :
    Account script [] [] (ofDeliveries file script) where
  input := .start script
  position_eq := rfl

/-! ## Steps -/

theorem failure_note (s : Scanner) (fault : Fault) : (s.note fault).failure = s.failure.or fault.message? := by
  cases fault with
  | ended => simp [note, Fault.message?]
  | failed message => cases hf : s.failure <;> simp [note, hf, Fault.message?]

namespace Account

theorem look (h : Account script delivered taken s) {c : Option Char} (hp : s.peek = (c, t)) :
    ∃ ds, Account script (delivered ++ ds) taken t := by
  unfold peek at hp
  split at hp
  · next hp' =>
    cases hp
    obtain ⟨ds, hd⟩ := h.input.peek_ok hp'
    exact ⟨ds, hd, h.position_eq⟩
  · next hp' =>
    cases hp
    obtain ⟨ds, hd⟩ := h.input.peek_error hp'
    exact ⟨ds, by rw [failure_note, input_note]; exact hd, by rw [position_note]; exact h.position_eq⟩

theorem take (h : Account script delivered taken s) {r : Symbol} {input : Input} (hn : s.input.next = (.ok r, input)) :
    ∃ ds, Account script (delivered ++ ds) (taken ++ [r]) { s with input, position := s.position.advance r } := by
  obtain ⟨ds, hd⟩ := h.input.next_ok hn
  refine ⟨ds, ?_, ?_⟩
  · rw [Symbol.text_append, Symbol.text_cons, Symbol.text_nil, List.append_nil]
    exact hd
  · rw [Position.past_concat, ← h.position_eq]

/-- A fault is met when nothing is buffered, and is not pending any more. -/
theorem fault (h : Account script delivered taken s) (hn : s.next = (none, t)) :
    (∃ ds, Account script (delivered ++ ds) taken t) ∧ t.input.buffer = [] ∧ t.input.pending = none := by
  unfold next at hn
  split at hn
  · cases hn
  · next hn' =>
    cases hn
    obtain ⟨ds, hd, hb, hp⟩ := h.input.next_error hn'
    rw [input_note]
    refine ⟨⟨ds, ?_, ?_⟩, hb, hp⟩
    · rw [failure_note, input_note]
      exact hd
    · rw [position_note]
      exact h.position_eq

/-! ## Runs -/

/-- Looking and taking keep the books. -/
theorem reads (h : Account script delivered taken s) (hr : Reads s more t) :
    ∃ ds, Account script (delivered ++ ds) (taken ++ more) t := by
  induction hr generalizing delivered taken with
  | refl s => exact ⟨[], by simpa using h⟩
  | look hp _ ih =>
    obtain ⟨ds, hd⟩ := h.look hp
    obtain ⟨es, he⟩ := ih hd
    exact ⟨ds ++ es, by simpa using he⟩
  | take hn _ ih =>
    obtain ⟨ds, hd⟩ := h.take hn
    obtain ⟨es, he⟩ := ih hd
    exact ⟨ds ++ es, by simpa using he⟩
  | fault hn _ ih =>
    obtain ⟨⟨ds, hd⟩, _⟩ := h.fault hn
    obtain ⟨es, he⟩ := ih hd
    exact ⟨ds ++ es, by simpa using he⟩

/-- Nothing is left over at the end of a run. -/
theorem drained_run (h : Account script delivered taken s) :
    s.run.2.input.buffer = [] ∧ s.run.2.input.pending = none := by
  obtain ⟨more, t, ht, hn⟩ := run_ends s
  obtain ⟨ds, hd⟩ := h.reads ht
  exact (hd.fault hn).2

end Account

/-- A failure that is remembered stays. -/
theorem Reads.failure_stays (h : Reads s more t) {message : Bytes} (hf : s.failure = some message) :
    t.failure = some message := by
  induction h with
  | refl s => exact hf
  | look hp _ ih =>
    refine ih ?_
    unfold peek at hp
    split at hp
    · cases hp
      exact hf
    · cases hp
      rw [failure_note, hf]
      rfl
  | take _ _ ih => exact ih hf
  | fault hn _ ih =>
    refine ih ?_
    unfold next at hn
    split at hn
    · cases hn
    · cases hn
      rw [failure_note, hf]
      rfl

/-- The scanner after `n` runs. -/
def after (s : Scanner) : Nat → Scanner
  | 0 => s
  | n + 1 => s.run.2.after n

theorem after_add (s : Scanner) (m n : Nat) : s.after (m + n) = (s.after m).after n := by
  induction m generalizing s with
  | zero => rw [Nat.zero_add]; rfl
  | succ m ih => rw [Nat.succ_add]; exact ih s.run.2

theorem reads_after (s : Scanner) (n : Nat) : ∃ taken, Reads s taken (s.after n) := by
  induction n generalizing s with
  | zero => exact ⟨[], .refl s⟩
  | succ n ih =>
    obtain ⟨a, ha⟩ := reads_run s
    obtain ⟨b, hb⟩ := ih s.run.2
    exact ⟨a ++ b, ha.trans hb⟩

/-- What can be seen of the failure after each run. -/
theorem failure_runs (before : List Token) (s : Scanner) (n : Nat) :
    (runs before s n).map Reading.failure = (List.range n).map fun k => (s.after (k + 1)).failure := by
  induction n generalizing before s with
  | zero => rfl
  | succ n ih =>
    rw [runs, List.map_cons, ih, List.range_succ_eq_map, List.map_cons, List.map_map]
    rfl

/-- The books after some runs. -/
theorem account_after (file : Bytes) (script : List Delivery) (n : Nat) :
    ∃ delivered taken, Account script delivered taken ((ofDeliveries file script).after n) ∧
      Reads (ofDeliveries file script) taken ((ofDeliveries file script).after n) := by
  obtain ⟨taken, ht⟩ := reads_after (ofDeliveries file script) n
  obtain ⟨ds, hd⟩ := (account_ofDeliveries file script).reads ht
  exact ⟨ds, taken, by simpa using hd, ht⟩

/-- Nothing is left over after a run. -/
theorem drained_after (file : Bytes) (script : List Delivery) (n : Nat) :
    ((ofDeliveries file script).after (n + 1)).input.buffer = [] ∧
      ((ofDeliveries file script).after (n + 1)).input.pending = none := by
  obtain ⟨_, _, hd, _⟩ := account_after file script n
  rw [after_add]
  exact hd.drained_run

/-- What was delivered up to the end of a run, by the first failure in it. -/
theorem failure_after {file : Bytes} {n : Nat}
    (h : script = delivered ++ ((ofDeliveries file script).after (n + 1)).input.coming) :
    ((ofDeliveries file script).after (n + 1)).failure = (Input.failures delivered).head? := by
  obtain ⟨ds, taken, ha, _⟩ := account_after file script (n + 1)
  have hds : delivered = ds := List.append_cancel_right (h.symm.trans ha.input.script_eq)
  rw [hds, ← ha.input.failure_eq, (drained_after file script n).2]
  simp

end CallLang.Scanner
