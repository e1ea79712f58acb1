import CallLang.Compiler
import CallLang.Proofs.Token.Account

/-!
# Nothing that arrives is lost

Deliveries may bring anything: bytes in any pieces, faults with or without bytes, ends that are not the last, and empty
deliveries in any number. Every run of a scanner comes to an end (`Scanner.run` is total), and then all bytes that have
arrived are taken and all faults that have arrived are reported. So a source becomes C text only if nothing of what was
read of it failed.
-/

namespace CallLang

/-- C text is made only if the scanner remembers no failure. -/
theorem Compiler.failure_of_toC {c : Compiler} {file text : Bytes} {script : List Delivery}
    (h : (c.toC file script).result = .ok text) : ((Scanner.ofDeliveries file script).after 1).failure = none := by
  unfold Compiler.toC at h
  dsimp only at h
  split at h
  · cases h
  · next hf => exact hf

/-- **Nothing that arrives is lost.** After each run of a scanner, the deliveries that have arrived are a beginning of
all deliveries; the symbols taken so far make up their bytes, so the offset is their number; nothing is buffered and no
fault is pending; the failure that can be seen is the first one among them. Once it is there it stays. C text is made
only if each delivery that has arrived has no fault but the end. -/
theorem nothing_lost (file : Bytes) (script : List Delivery) :
    let start := Scanner.ofDeliveries file script
    (∀ n, ∃ delivered taken,
      script = delivered ++ (start.after (n + 1)).input.coming ∧
      start.Reads taken (start.after (n + 1)) ∧ Symbol.text taken = Input.incoming delivered ∧
      (start.after (n + 1)).position.offset = (Input.incoming delivered).length ∧
      (start.after (n + 1)).input.buffer = [] ∧ (start.after (n + 1)).input.pending = none ∧
      (start.after (n + 1)).failure = (Input.failures delivered).head?) ∧
    (∀ n, (Scanner.runs [] start n).map Scanner.Reading.failure =
      (List.range n).map fun k => (start.after (k + 1)).failure) ∧
    (∀ m n message, (start.after m).failure = some message → (start.after (m + n)).failure = some message) ∧
    ∀ (c : Compiler) (text : Bytes), (c.toC file script).result = .ok text →
      ∃ delivered, script = delivered ++ (start.after 1).input.coming ∧
        ∀ d ∈ delivered, d.fault = none ∨ d.fault = some .ended := by
  intro start
  refine ⟨?_, Scanner.failure_runs [] start, ?_, ?_⟩
  · intro n
    obtain ⟨delivered, taken, ha, hr⟩ := Scanner.account_after file script (n + 1)
    obtain ⟨hb, hp⟩ := Scanner.drained_after file script n
    have htext : Symbol.text taken = Input.incoming delivered := by
      rw [ha.input.bytes_eq, hb, List.append_nil]
    refine ⟨delivered, taken, ha.input.script_eq, hr, htext, ?_, hb, hp, Scanner.failure_after ha.input.script_eq⟩
    rw [ha.position_eq, Position.offset_past, htext]
  · intro m n message hf
    obtain ⟨taken, ht⟩ := Scanner.reads_after (start.after m) n
    rw [Scanner.after_add]
    exact ht.failure_stays hf
  · intro c text hc
    obtain ⟨delivered, taken, ha, _⟩ := Scanner.account_after file script 1
    have hf := Scanner.failure_after ha.input.script_eq
    rw [Compiler.failure_of_toC hc] at hf
    exact ⟨delivered, ha.input.script_eq, Input.fault_of_failures_eq_nil (List.head?_eq_none_iff.1 hf.symm)⟩

/-- A failure inside a number, an end, and a second failure; and a source that has no fault but the end. -/
theorem nothing_lost_two_failures :
    let boom := ascii "boom"
    let script : List Delivery :=
      [⟨ascii "12", some (.failed boom)⟩, ⟨ascii "3 ", some .ended⟩, ⟨ascii "x", some (.failed (ascii "late"))⟩]
    let start := Scanner.ofDeliveries [] script
    let clean : List Delivery := [⟨ascii "f(", none⟩, ⟨ascii ");", some .ended⟩]
    (start.after 1).failure = some boom ∧ (start.after (1 + 1)).failure = some boom ∧
    (∃ delivered taken, script = delivered ++ (start.after 2).input.coming ∧ start.Reads taken (start.after 2) ∧
      Symbol.text taken = Input.incoming delivered ∧ (start.after 2).position.offset = 5) ∧
    (Compiler.toC {} [] clean).result = .ok (ascii "f();") ∧
    ∃ delivered, clean = delivered ++ ((Scanner.ofDeliveries [] clean).after 1).input.coming ∧
      ∀ d ∈ delivered, d.fault = none ∨ d.fault = some .ended := by
  intro boom script start clean
  obtain ⟨hall, _, hstays, _⟩ := nothing_lost [] script
  obtain ⟨_, _, _, hclean⟩ := nothing_lost [] clean
  have hfailure : (start.after 1).failure = some boom := by decide +kernel
  have hoffset : (start.after 2).position.offset = 5 := by decide +kernel
  have htext : (Compiler.toC {} [] clean).result = .ok (ascii "f();") := by decide +kernel
  obtain ⟨delivered, taken, hd, hr, ht, _⟩ := hall 1
  exact ⟨hfailure, hstays 1 1 boom hfailure, ⟨delivered, taken, hd, hr, ht, hoffset⟩, htext, hclean {} _ htext⟩

end CallLang
