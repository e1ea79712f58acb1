import CallLang.Proofs.Program.Reaching
import CallLang.Proofs.Token.Numbers

/-!
# Runs of a generator

A generator finds what `Program.toC` says, whatever is in its buffer.

- `Writing.Writes`: writing puts a text behind what is in the buffer; or something is wrong, and it stops there with a
  beginning of the text behind the buffer. This is so for one instruction (`Instr.writes_instr`), by the cases of an
  instruction, hence for a program;
- `Generator.run_eq`: so a run, which clears the buffer, has the text of the program or the first error. `results_eq` goes
  along a history of growing and running;
- `Instr.ownFault_eq_some_iff`: what is wrong with a call, said on the text of its first operand (`Instr.WrongExit`).
-/

namespace CallLang

/-! ## Writing -/

namespace Writing

/-- Writing puts a text behind any buffer. If something is wrong it stops, with a beginning of the text behind the
buffer. -/
def Writes (w : Writing Unit) (fault : Option RangeError) (text : Bytes) : Prop :=
  ∀ buffer, match fault with
    | none => w buffer = .ok () (buffer ++ text)
    | some e => ∃ front, front <+: text ∧ w buffer = .error e (buffer ++ front)

variable {w w' : Writing Unit} {fault fault' : Option RangeError} {text text' : Bytes}

theorem writes_pure : Writes (pure ()) none [] := by
  intro buffer
  show EStateM.Result.ok () buffer = .ok () (buffer ++ [])
  rw [List.append_nil]

theorem writes_write (text : Bytes) : Writes (write text) none text := by
  intro buffer
  rfl

theorem writes_check (fault : Option RangeError) : Writes (check fault) fault [] := by
  cases fault with
  | none => exact writes_pure
  | some e =>
    intro buffer
    exact ⟨[], List.nil_prefix, by rw [List.append_nil]; rfl⟩

/-- One writing after another: the first thing that is wrong counts. -/
theorem Writes.andThen (h : Writes w fault text) (h' : Writes w' fault' text') :
    Writes (w >>= fun _ => w') (fault.or fault') (text ++ text') := by
  intro buffer
  have hw := h buffer
  cases fault with
  | some e =>
    obtain ⟨front, hfront, hstop⟩ := hw
    refine ⟨front, hfront.trans (List.prefix_append _ _), ?_⟩
    simp only [bind, EStateM.bind, hstop]
  | none =>
    have hbind : (w >>= fun _ => w') buffer = w' (buffer ++ text) := by
      simp only [bind, EStateM.bind, hw]
    rw [Option.none_or]
    cases fault' with
    | none =>
      have hdone : w' (buffer ++ text) = .ok () (buffer ++ text ++ text') := h' (buffer ++ text)
      rw [List.append_assoc] at hdone
      exact hbind.trans hdone
    | some e =>
      obtain ⟨front, hfront, hstop⟩ := h' (buffer ++ text)
      rw [List.append_assoc] at hstop
      exact ⟨text ++ front, (List.prefix_append_right_inj text).2 hfront, hbind.trans hstop⟩

end Writing

namespace Instr

open Writing

mutual

/-- An instruction is written as its text, up to its first wrong call. -/
theorem writes_instr (i : Instr) : Writes i.write i.fault? (i.toC []) :=
  match i with
  | .missing => writes_pure
  | .importing _ _ _ => writes_pure
  | .literal value _ => (writes_write value.toC).andThen (writes_write (ascii ";"))
  | .call name operands place => by
    have h := (writes_check (callFault? name (operands.getD []) place)).andThen
      (writes_write (callToC name (operands.getD [])))
    rw [Option.or_none, List.nil_append] at h
    rw [toC, List.append_nil]
    exact h
  | .function name parameters body _ _ => by
    have h := (writes_write (headToC name parameters)).andThen
      ((writes_block body).andThen (writes_write (endToC name body)))
    rw [Option.none_or, Option.or_none, ← blockToC_append, List.nil_append] at h
    rw [toC, List.append_nil]
    exact h

theorem writes_block (block : Option (List Instr)) : Writes (writeBlock block) (blockFault? block) (blockToC block []) :=
  match block with
  | none => writes_pure
  | some instrs => writes_all instrs

theorem writes_all (instrs : List Instr) : Writes (writeAll instrs) (firstFault? instrs) (allToC instrs []) :=
  match instrs with
  | [] => writes_pure
  | i :: rest => by
    have h := (writes_instr i).andThen (writes_all rest)
    rw [← toC_append, List.nil_append] at h
    have hfault : firstFault? (i :: rest) = i.fault?.or (firstFault? rest) := by
      rw [firstFault?]
      cases i.fault? <;> rfl
    rw [hfault]
    exact h

end

end Instr

/-! ## Runs -/

namespace Generator

/-- **A run has the text of the program, or the first error, whatever is in the buffer.** The program stays, and what was
written is a beginning of its text. -/
theorem run_eq (g : Generator) :
    g.run.1 = g.program.toC ∧ g.run.2.program = g.program ∧
      g.run.2.buffer <+: g.program.header ++ g.program.bodyToC := by
  have hwrite := ((Writing.writes_write g.program.header).andThen (Instr.writes_block g.program.instructions)) []
  have hclear : g.program.write g.buffer =
      (Writing.write g.program.header >>= fun _ => Instr.writeBlock g.program.instructions) [] := rfl
  have hbody : g.program.bodyToC = Instr.blockToC g.program.instructions [] := (Instr.blockToC_eq _ _).symm
  rw [Option.none_or] at hwrite
  rw [run, hclear, Program.toC, hbody]
  cases hfault : Instr.blockFault? g.program.instructions with
  | none =>
    rw [hfault] at hwrite
    simp only [hwrite, List.nil_append, true_and]
    exact List.prefix_refl _
  | some e =>
    rw [hfault] at hwrite
    obtain ⟨front, hfront, hstop⟩ := hwrite
    simp only [hstop, List.nil_append, true_and]
    exact hfront

end Generator

/-- The program as it stands at each run of a history. -/
def Program.versions (p : Program) : List Generator.Step → List Program
  | [] => []
  | .append instrs :: rest => versions (p.append instrs) rest
  | .run :: rest => p :: versions p rest

/-- Each run of a history has the result of the program as it then stands. -/
theorem Generator.results_eq (g : Generator) (steps : List Step) :
    g.results steps = (g.program.versions steps).map Program.toC := by
  induction steps generalizing g with
  | nil => rfl
  | cons step rest ih =>
    cases step with
    | append instrs => exact ih _
    | run =>
      obtain ⟨hresult, hprogram, _⟩ := g.run_eq
      rw [results, Program.versions, List.map_cons, ih, hresult, hprogram]

/-! ## Wrong exit codes -/

namespace Instr

/-- A call of `exit` whose first operand is a number with a text that is no decimal integer from 0 to 255. -/
def WrongExit (e : RangeError) (i : Instr) : Prop :=
  ∃ code others place, i = .call (ascii "exit") (some (code :: others)) place ∧ code.kind = .number ∧
    (¬ ∃ n, Integer.Denotes code.text n ∧ 0 ≤ n ∧ n ≤ 255) ∧ e = ⟨place, ascii "exit", code.text⟩

/-- An exit code is a text that is read as a number from 0 to 255. -/
theorem isExitCode_number {v : Literal} (h : v.kind = .number) :
    isExitCode v = true ↔ ∃ n, Integer.Denotes v.text n ∧ 0 ≤ n ∧ n ≤ 255 := by
  have hread {n : Int} : v.toInt = .ok n ↔ Integer.Denotes v.text n ∧ Integer.least ≤ n ∧ n ≤ Integer.greatest :=
    Integer.read_eq_ok_iff
  simp only [isExitCode, h]
  constructor
  · intro hcode
    split at hcode
    · next n hn =>
      rw [Bool.and_eq_true, decide_eq_true_eq, decide_eq_true_eq] at hcode
      exact ⟨n, (hread.1 hn).1, hcode⟩
    · cases hcode
  · rintro ⟨n, hn, hrange⟩
    have hok : v.toInt = .ok n := by
      refine hread.2 ⟨hn, ?_⟩
      rw [Integer.least, Integer.greatest]
      omega
    rw [hok]
    simpa using hrange

theorem isExitCode_other {v : Literal} (h : v.kind ≠ .number) : isExitCode v = true := by
  unfold isExitCode
  split
  · next hk => exact absurd hk h
  · rfl

theorem ownFault_eq_some_iff {i : Instr} {e : RangeError} : i.ownFault? = some e ↔ i.WrongExit e := by
  constructor
  · intro h
    match i, h with
    | .call name (some (code :: others)) place, h =>
      simp only [ownFault?, callFault?, Option.getD_some] at h
      split at h
      · next hwrong =>
        cases h
        rw [Bool.and_eq_true, isExit, beq_iff_eq, Bool.not_eq_true'] at hwrong
        obtain ⟨rfl, hcode⟩ := hwrong
        have hk : code.kind = .number := by
          by_contra hk
          rw [isExitCode_other hk] at hcode
          cases hcode
        refine ⟨code, others, place, rfl, hk, ?_, rfl⟩
        rw [← isExitCode_number hk, hcode]
        exact Bool.false_ne_true
      · cases h
  · rintro ⟨code, others, place, rfl, hk, hwrong, rfl⟩
    rw [← isExitCode_number hk, Bool.not_eq_true] at hwrong
    simp [ownFault?, callFault?, isExit, hwrong]

end Instr

/-- A program has no C text if it has a wrong exit code; the first one in order is what is wrong. -/
theorem Program.toC_eq_error_iff_first {p : Program} {e : RangeError} :
    p.toC = .error e ↔ ∃ before i after, p.preorder = before ++ i :: after ∧ i.WrongExit e ∧
      ∀ j ∈ before, ∀ e', ¬ j.WrongExit e' := by
  rw [toC_eq_error_iff, Instr.firstFault_preorder, ← preorder_eq, List.findSome?_eq_some_iff]
  simp only [Instr.ownFault_eq_some_iff, ← Option.not_isSome_iff_eq_none, Option.isSome_iff_exists, not_exists]

/-- **A generator fails at the first wrong exit code, and a run leaves nothing for the next.** A run has the result of
its program, whatever the buffer holds. The program has no text if a call that is reached through the bodies of functions
has a wrong exit code, and in no other case; then the error is that of the first such call in order. In a history, in
which the program grows between runs, each run has the result of the program as it then stands. -/
theorem generator_exact (p : Program) :
    (∀ buffer, (Generator.mk p buffer).run.1 = p.toC) ∧
    ((∃ e, p.toC = .error e) ↔ ∃ i e, Instr.Within p.instrs i ∧ i.WrongExit e) ∧
    (∀ e, p.toC = .error e → ∃ before i after, p.preorder = before ++ i :: after ∧ i.WrongExit e ∧
      ∀ j ∈ before, ∀ e', ¬ j.WrongExit e') ∧
    ∀ buffer steps, (Generator.mk p buffer).results steps = (p.versions steps).map Program.toC := by
  refine ⟨fun buffer => (Generator.mk p buffer).run_eq.1, ⟨?_, ?_⟩, fun e => Program.toC_eq_error_iff_first.1,
    fun buffer => (Generator.mk p buffer).results_eq⟩
  · rintro ⟨e, h⟩
    obtain ⟨before, i, after, hsplit, hwrong, _⟩ := Program.toC_eq_error_iff_first.1 h
    refine ⟨i, e, Instr.mem_allPreorder_iff.1 ?_, hwrong⟩
    rw [← Program.preorder_eq, hsplit]
    simp
  · rintro ⟨i, e, hi, hwrong⟩
    have hfound : ((Instr.allPreorder p.instrs).findSome? Instr.ownFault?).isSome := by
      rw [List.findSome?_isSome_iff]
      exact ⟨i, Instr.mem_allPreorder_iff.2 hi, Option.isSome_iff_exists.2 ⟨e, Instr.ownFault_eq_some_iff.2 hwrong⟩⟩
    obtain ⟨e', he'⟩ := Option.isSome_iff_exists.1 hfound
    exact ⟨e', Program.toC_eq_error_iff.2 (by rw [Instr.firstFault_preorder, he'])⟩

/-- A good code with a sign, a missing instruction, and a wrong code that only a parameter has. The program grows by a code
that is too large, and by one that is no number; both runs after that meet the first of them. -/
theorem generator_exact_grown :
    let exit (code : String) (place : Option Location) : Instr :=
      .call (ascii "exit") (some [⟨.number, ascii code⟩]) place
    let p : Program := ⟨[], some [.function (ascii "f") (some [exit "999" none]) (some [.missing, exit "+7" none])
      .void none]⟩
    let more := [.function (ascii "g") none (some [exit "256" (some ⟨[], 1, 2, 1⟩)]) .void none, exit "x" none]
    let text := ascii "#include <stdlib.h>\nvoid f(void) " ++ Bytes.braced (ascii "exit(+7);")
    let e : RangeError := ⟨some ⟨[], 1, 2, 1⟩, ascii "exit", ascii "256"⟩
    (Generator.mk p (ascii "before")).results [.run, .append more, .run, .run] = [.ok text, .error e, .error e] ∧
    (p.append more).toC = .error e ∧
    (∃ i e', Instr.Within (p.append more).instrs i ∧ i.WrongExit e') ∧
    ∃ before i after, (p.append more).preorder = before ++ i :: after ∧ i.WrongExit e ∧
      ∀ j ∈ before, ∀ e', ¬ j.WrongExit e' := by
  intro exit p more text e
  have hgrown : (p.append more).toC = .error e := by decide +kernel
  obtain ⟨_, hwrong, hfirst, _⟩ := generator_exact (p.append more)
  refine ⟨?_, hgrown, hwrong.1 ⟨e, hgrown⟩, hfirst e hgrown⟩
  rw [(generator_exact p).2.2.2]
  decide +kernel

end CallLang
