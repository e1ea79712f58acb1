import CallLang.Text.Utf8

/-!
# Buffered input

A source arrives as a list of deliveries: each brings some bytes and may end in a fault, which is the end of the input
or a failure. `Input` holds the bytes that have arrived and are not yet taken, a fault that has arrived and is not yet
reported, and the deliveries still to come. After the last delivery every further one is empty and ends the input.

- `Input.settle` takes deliveries until the head of the buffer is decided or a fault is pending;
- `Input.next` takes one symbol, or reports the pending fault once the buffer is empty and forgets it;
- `Input.peek` gives the same answer and leaves the symbol where it is (`next_of_peek`);
- a symbol taken brings the end nearer (`ahead_next`), and looking does not (`ahead_peek`).
-/

namespace CallLang

/-- What may end a delivery. -/
inductive Fault where
  /-- The end of the input. -/
  | ended
  /-- Any other fault, with its message. -/
  | failed (message : Bytes)
deriving DecidableEq, Repr

/-- What one delivery brings. -/
structure Delivery where
  data : Bytes
  fault : Option Fault := none
deriving DecidableEq, Repr

/-- A source between two readings. -/
structure Input where
  buffer : Bytes := []
  pending : Option Fault := none
  coming : List Delivery
deriving DecidableEq, Repr

namespace Fault

/-- The fault that stands for too many empty deliveries in a row. -/
def stalled : Fault :=
  .failed (ascii "multiple Read calls return no data or error")

end Fault

namespace Input

/-- The number of empty deliveries in a row after which an input counts as stalled. -/
def patience : Nat := 100

/-- The input that brings `bytes` in one delivery and ends. -/
def ofBytes (bytes : Bytes) : Input where
  coming := [⟨bytes, none⟩]

/-- Takes deliveries until the head of the buffer is decided or a fault arrives. `idle` counts the empty deliveries
since the last one that brought something. -/
def fill (buffer : Bytes) (idle : Nat) : List Delivery → Input
  | [] => if Utf8.settled buffer then ⟨buffer, none, []⟩ else ⟨buffer, some .ended, []⟩
  | d :: coming =>
    if Utf8.settled buffer then ⟨buffer, none, d :: coming⟩
    else match d.data, d.fault with
      | data, some fault => ⟨buffer ++ data, some fault, coming⟩
      | [], none => if idle + 1 = patience then ⟨buffer, some .stalled, coming⟩ else fill buffer (idle + 1) coming
      | b :: data, none => fill (buffer ++ b :: data) 0 coming

/-- An input whose next answer is decided: the head of its buffer is, or a fault is pending. -/
def settle (i : Input) : Input :=
  match i.pending with
  | some _ => i
  | none => fill i.buffer 0 i.coming

/-- Reports the pending fault and forgets it. -/
def report (i : Input) : Fault × Input :=
  (i.pending.getD .ended, { i with pending := none })

/-- Takes one symbol, or reports a fault when no byte is left to take. -/
def next (i : Input) : Except Fault Symbol × Input :=
  let i := i.settle
  match Utf8.decode i.buffer with
  | some (r, rest) => (.ok r, { i with buffer := rest })
  | none => (.error i.report.1, i.report.2)

/-- Looks at the next symbol and leaves it in the buffer; a fault is reported as by `next`. -/
def peek (i : Input) : Except Fault Symbol × Input :=
  let i := i.settle
  match Utf8.decode i.buffer with
  | some (r, _) => (.ok r, i)
  | none => (.error i.report.1, i.report.2)

/-! ## Looking and taking agree -/

theorem fill_of_settled {buffer : Bytes} (h : Utf8.settled buffer = true) (idle : Nat) (coming : List Delivery) :
    fill buffer idle coming = ⟨buffer, none, coming⟩ := by
  cases coming <;> simp [fill, h]

/-- An input that has taken its deliveries has a fault pending or the head of its buffer decided. -/
theorem settled_fill (buffer : Bytes) (idle : Nat) (coming : List Delivery)
    (h : (fill buffer idle coming).pending = none) : Utf8.settled (fill buffer idle coming).buffer = true := by
  induction coming generalizing buffer idle with
  | nil => unfold fill at h ⊢; split <;> simp_all
  | cons d coming ih =>
    unfold fill at h ⊢
    split
    · assumption
    · simp only [*, Bool.false_eq_true, if_false] at h
      split
      · simp_all
      · split
        · simp_all
        · exact ih _ _ (by simp_all)
      · exact ih _ _ (by simp_all)

theorem settled_settle {i : Input} (h : i.settle.pending = none) : Utf8.settled i.settle.buffer = true := by
  unfold settle at h ⊢
  split
  · simp_all
  · simp only [*] at h
    exact settled_fill _ _ _ h

/-- There is nothing to wait for once the head of the buffer is decided or a fault is pending. -/
theorem settle_eq {i : Input} (h : i.pending = none → Utf8.settled i.buffer = true) : i.settle = i := by
  cases hp : i.pending with
  | some _ => rw [settle, hp]
  | none =>
    rw [settle, hp]
    simp only [fill_of_settled (h hp), ← hp]

/-- Waiting twice is waiting once. -/
@[simp] theorem settle_settle (i : Input) : i.settle.settle = i.settle :=
  settle_eq settled_settle

/-- What looking finds, taking then takes. -/
theorem next_of_peek {i j : Input} {r : Symbol} (h : i.peek = (.ok r, j)) : ∃ k, j.next = (.ok r, k) := by
  unfold peek at h
  dsimp only at h
  split at h
  · next rest hd =>
    cases h
    exact ⟨{ i.settle with buffer := rest }, by unfold next; simp only [settle_settle, hd]⟩
  · cases h

/-! ## The bytes ahead -/

/-- The bytes that deliveries bring, in order. -/
def incoming (coming : List Delivery) : Bytes :=
  coming.flatMap Delivery.data

/-- The bytes that have not been taken yet, whether they have arrived or not. -/
def ahead (i : Input) : Bytes :=
  i.buffer ++ incoming i.coming

theorem ahead_fill (buffer : Bytes) (idle : Nat) (coming : List Delivery) :
    (fill buffer idle coming).ahead = buffer ++ incoming coming := by
  induction coming generalizing buffer idle with
  | nil => unfold fill; split <;> simp [ahead]
  | cons d coming ih =>
    unfold fill
    split
    · rfl
    · split
      · simp [ahead, incoming, *]
      · next h _ =>
        split
        · simp [ahead, incoming, h]
        · rw [ih]; simp [incoming, h]
      · next h _ => rw [ih]; simp [incoming, h]

/-- Waiting for deliveries loses no byte and takes none. -/
@[simp] theorem ahead_settle (i : Input) : i.settle.ahead = i.ahead := by
  unfold settle
  split
  · rfl
  · exact ahead_fill i.buffer 0 i.coming

/-- Looking takes no byte. -/
@[simp] theorem ahead_peek (i : Input) : i.peek.2.ahead = i.ahead := by
  rw [← ahead_settle i]
  unfold peek
  dsimp only
  split <;> rfl

/-- Taking a symbol leaves fewer bytes ahead. -/
theorem ahead_next {i j : Input} {r : Symbol} (h : i.next = (.ok r, j)) : j.ahead.length < i.ahead.length := by
  rw [← ahead_settle i]
  unfold next at h
  dsimp only at h
  split at h
  · next hd =>
    cases h
    have := Utf8.length_decode hd
    simp [ahead]; omega
  · cases h

/-- Reporting a fault takes no byte. -/
theorem ahead_next_error {i j : Input} {fault : Fault} (h : i.next = (.error fault, j)) : j.ahead = i.ahead := by
  rw [← ahead_settle i]
  unfold next at h
  dsimp only at h
  split at h
  · cases h
  · cases h; rfl

end Input

end CallLang
