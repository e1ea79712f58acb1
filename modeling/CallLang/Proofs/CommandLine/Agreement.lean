import CallLang.Proofs.CommandLine.Starting

/-!
# The listings and the C text agree

The modes read a file in two ways: the listings take its whole content, the C text and the executable are made while it
is read. What they say is decided by the content alone, and by the same tree.

- `Asks`: arguments that ask for one mode, by its switch;
- `Asks.run_tree`, `Asks.run_program`, `Asks.run_text`, `Asks.run_executable`: what a run in each mode is;
- `file_cases`: for a file all modes go by one tree, or by one reason why there is none;
- `modes_agree` compares the runs.
-/

namespace CallLang.CommandLine

open Arguments (Reads)

/-- What a run can be asked for, listings of tokens apart. -/
inductive Mode where
  | tree
  | program
  | text
  | executable
deriving DecidableEq, Repr

/-- The switch that asks for a mode; none asks for the executable. -/
def Mode.switch? : Mode → Option Bytes
  | .tree => some (ascii "emit-ast")
  | .program => some (ascii "emit-ic")
  | .text => some (ascii "emit-c")
  | .executable => none

/-- Arguments that name one file and ask for one mode: no switch is on but that of the mode. -/
def Asks (arguments : List Bytes) (mode : Mode) (path : Bytes) : Prop :=
  ∃ flags, Reads arguments flags (.left [path]) ∧
    ∀ name ∈ Flag.switches, Flag.isOn name flags = decide (mode.switch? = some name)

namespace Report

/-- A listing that fails because the file is no program, with a message about it. -/
def Rejects (r : Report) (message : Bytes) : Prop :=
  r.status = 1 ∧ Event.outputText r.log = [] ∧
    Event.diagnosticsText r.log = ascii "Parse error: " ++ message ++ ascii "\n"

/-- A compilation that fails with a message. -/
def FailsWith (r : Report) (message : Bytes) : Prop :=
  r.status = 1 ∧ Event.diagnosticsText r.log = ascii "error: " ++ message ++ ascii "\n"

end Report

/-! ## The modes -/

section Modes

variable {host : Host} {arguments : List Bytes} {path : Bytes}

/-- Arguments that ask for a mode have the options of this mode. -/
theorem Asks.options {mode : Mode} (h : Asks arguments mode path) (host : Host) :
    ∃ o, run host arguments = runFile host o path ∧ o.trace = false ∧ o.emitTokens = false ∧
      o.emitTree = decide (mode = .tree) ∧ o.emitProgram = decide (mode = .program) ∧
      o.emitC = decide (mode = .text) := by
  obtain ⟨flags, hreads, hon⟩ := h
  have switch {on : Bool} (name : Bytes) (hn : name ∈ Flag.switches) (hs : decide (mode.switch? = some name) = on) :
      Flag.isOn name flags = on := (hon name hn).trans hs
  have hread : Options.read {} arguments = .given (.ofFlags flags) [path] := Options.read_of_reads hreads
  have hversion : (Options.ofFlags flags).version = false := by
    refine switch (ascii "version") (by decide) ?_
    cases mode <;> rfl
  refine ⟨.ofFlags flags, ?_, switch (ascii "trace") (by decide) ?_, switch (ascii "emit-tokens") (by decide) ?_,
    switch (ascii "emit-ast") (by decide) ?_, switch (ascii "emit-ic") (by decide) ?_,
    switch (ascii "emit-c") (by decide) ?_⟩
  · simp only [run, hread, hversion, Bool.false_eq_true, if_false]
  all_goals cases mode <;> rfl

/-- The switch of a mode before a file asks for it. -/
theorem asks_switch {mode : Mode} {name : Bytes} (hm : mode.switch? = some name) (hp : Arguments.IsPlain path) :
    Asks [Options.dash :: name, path] mode path := by
  have hname : name ∈ Flag.switches ∧ name ≠ [] ∧ name.head? ≠ some Options.dash ∧ Options.equals ∉ name := by
    cases mode <;> cases hm <;> decide
  have hspells : Arguments.Spells (Options.dash :: name) name none := ⟨.inl rfl, hname.2⟩
  refine ⟨[⟨name, ascii "true"⟩], ⟨[path], .switch hspells hname.1 (by decide) (.nil _), .plain hp⟩, fun other _ => ?_⟩
  have hlast : Flag.lastValue other [⟨name, ascii "true"⟩] (ascii "false") =
      if name = other then ascii "true" else ascii "false" := Options.lastValue_concat other [] ⟨name, _⟩ _
  rw [hm, Flag.isOn, hlast]
  by_cases h : name = other
  · simp only [h, if_true, decide_true]
    decide
  · simp only [h, if_false, Option.some.injEq, decide_false]
    decide

/-- A file alone asks for its executable. -/
theorem asks_nothing (hp : Arguments.IsPlain path) : Asks [path] .executable path :=
  ⟨[], ⟨[path], .nil _, .plain hp⟩, by decide⟩

theorem Asks.run_tree (h : Asks arguments .tree path) : run host arguments = listTree host path Tree.render := by
  obtain ⟨o, hrun, _, htokens, htree, _⟩ := h.options host
  simp [hrun, runFile, htokens, htree]

theorem Asks.run_program (h : Asks arguments .program path) :
    run host arguments = listTree host path (·.lower.render) := by
  obtain ⟨o, hrun, _, htokens, htree, hprogram, _⟩ := h.options host
  simp [hrun, runFile, htokens, htree, hprogram]

theorem Asks.run_text (h : Asks arguments .text path) :
    ∃ o, o.trace = false ∧ run host arguments = ofJob host ((compiler o).fileToC host path) := by
  obtain ⟨o, hrun, htrace, htokens, htree, hprogram, htext⟩ := h.options host
  exact ⟨o, htrace, by simp [hrun, runFile, htokens, htree, hprogram, htext]⟩

theorem Asks.run_executable (h : Asks arguments .executable path) :
    ∃ o, o.trace = false ∧ run host arguments = ofJob host ((compiler o).compile host path) := by
  obtain ⟨o, hrun, htrace, htokens, htree, hprogram, htext⟩ := h.options host
  exact ⟨o, htrace, by simp [hrun, runFile, htokens, htree, hprogram, htext]⟩

end Modes

/-! ## Files -/

section Files

variable {host : Host} {path content : Bytes}

/-- What cannot be read is not listed. -/
theorem listTree_unread (h : ∀ content, host.entry path ≠ .ok (.file content)) (render : Tree → Bytes) :
    (listTree host path render).status = 1 ∧ Event.outputText (listTree host path render).log = [] := by
  unfold listTree readSource
  cases hentry : host.entry path with
  | error problem => exact ⟨rfl, rfl⟩
  | ok entry =>
    cases entry with
    | directory => exact ⟨rfl, rfl⟩
    | file content => exact absurd hentry (h content)

/-- What cannot be read has no C text. -/
theorem fileToC_unread (h : ∀ content, host.entry path ≠ .ok (.file content)) (c : Compiler) :
    (ofJob host (c.fileToC host path)).status = 1 ∧ Event.outputText (ofJob host (c.fileToC host path)).log = [] := by
  have hstatus : (ofJob host (c.fileToC host path)).status = 1 := by
    rcases c.fileToC_cases host path with ⟨e, _, he⟩ | ⟨_, ⟨content, _, hentry, _⟩, _⟩
    · simp only [ofJob, he]
    · exact absurd hentry (h content)
  rcases (@quiet_fileToC host path c).status_eq with hzero | ⟨_, hsilent⟩
  · exact absurd (hstatus.symm.trans hzero) (by decide)
  · exact ⟨hstatus, hsilent⟩

/-- A file with any content either is rejected by all modes for one reason, or has one tree that they all go on with. -/
theorem file_cases (h : host.entry path = .ok (.file content)) :
    (∃ e : ParseError,
      (∀ render, listTree host path render = fail (ascii "Parse error: " ++ e.message ++ ascii "\n")) ∧
      ∀ c : Compiler, c.traced = false → c.fileToC host path = ⟨[], .error (.parse e)⟩) ∨
    ∃ root : Tree, parse path (tokenize path content) = .ok root ∧
      (∀ render, listTree host path render = succeed (render root)) ∧
      ∀ c : Compiler, c.traced = false → c.fileToC host path = ⟨[], root.lower.toC.mapError .range⟩ := by
  have hreport (c : Compiler) (hc : c.traced = false) (stages : List Stage) : c.report stages = [] := by
    simp [Compiler.report, hc]
  cases hparse : parse path (tokenize path content) with
  | error e =>
    refine .inl ⟨e, fun render => ?_, fun c hc => ?_⟩
    · simp only [listTree, readSource, h, hparse]
    · simp only [Compiler.fileToC, h, Compiler.deliveries, Compiler.toC_text, hparse, hreport c hc]
  | ok root =>
    refine .inr ⟨root, rfl, fun render => ?_, fun c hc => ?_⟩
    · simp only [listTree, readSource, h, hparse]
    · simp only [Compiler.fileToC, h, Compiler.deliveries, Compiler.toC_text, hparse, hreport c hc]
      cases root.lower.toC <;> rfl

/-- A file without a C text is not compiled, with the same words. -/
theorem compile_of_error {c : Compiler} {e : Failure} (h : c.fileToC host path = ⟨[], .error e⟩) :
    c.compile host path = ⟨[], .error e⟩ := by
  simp only [Compiler.compile, h]

/-- The C compiler is started on the C text of the tree of the file. -/
theorem source_of_invocation {o : Options} {root : Tree} {i : Invocation} (h : host.entry path = .ok (.file content))
    (hr : parse path (tokenize path content) = .ok root)
    (hi : i ∈ Event.invocations (ofJob host ((compiler o).compile host path)).log) : root.lower.toC = .ok i.source := by
  rcases @quiet_or_started_compile host o path with hquiet | ⟨source, tool, hsource, _, hstarted⟩
  · rw [hquiet.invocations_eq] at hi
    cases hi
  · rw [hstarted.invocations_eq] at hi
    obtain rfl := List.mem_singleton.1 hi
    obtain ⟨content', root', h', hr', htext⟩ := hsource
    cases h.symm.trans h'
    cases hr.symm.trans hr'
    exact htext

end Files

/-! ## Messages -/

section Messages

variable {host : Host} {message other : Bytes}

theorem rejects_fail_iff : (fail (ascii "Parse error: " ++ message ++ ascii "\n")).Rejects other ↔ other = message := by
  constructor
  · rintro ⟨_, _, h⟩
    simpa [fail, Event.diagnosticsText, eq_comm] using h
  · rintro rfl
    exact ⟨rfl, rfl, by simp [fail, Event.diagnosticsText]⟩

theorem not_rejects_succeed (text : Bytes) : ¬ (succeed text).Rejects message :=
  fun h => absurd h.1 (by simp [succeed])

/-- A job that fails at once says nothing but why. -/
theorem failsWith_ofJob_iff {e : Failure} : (ofJob host ⟨[], .error e⟩).FailsWith message ↔ message = e.message := by
  constructor
  · rintro ⟨_, h⟩
    simpa [ofJob, Event.diagnosticsText, eq_comm] using h
  · rintro rfl
    exact ⟨rfl, by simp [ofJob, Event.diagnosticsText]⟩

/-- A program that has no C text has another reason than that it cannot be parsed. -/
theorem not_failsWith_parse (result : Except RangeError Bytes) :
    ¬ (ofJob host ⟨[], result.mapError .range⟩).FailsWith (ascii "parse: " ++ message) := by
  intro h
  cases result with
  | error e => cases failsWith_ofJob_iff.1 h
  | ok source => exact absurd h.1 (by simp [ofJob, Except.mapError])

end Messages

/-- **The modes agree.** Let arguments ask for the tree, the program, the C text and the executable of one path. Where
no file can be read, the first three fail and write nothing to standard output. For a file with any content, the two
listings succeed together; one that fails names a reason, and it names it if and only if the C text and the executable
fail for this reason. If they succeed, they show a tree and its program, the C text is the one of this program, or there
is none because the program has a wrong exit code, and a C compiler is started on this text or not at all. All this does
not depend on how the content of the file is cut up as it is read. -/
theorem modes_agree (host : Host) (path : Bytes) (treeArguments programArguments textArguments arguments : List Bytes)
    (htree : Asks treeArguments .tree path) (hprogram : Asks programArguments .program path)
    (htext : Asks textArguments .text path) (hexecutable : Asks arguments .executable path) :
    let tree := run host treeArguments
    let program := run host programArguments
    let text := run host textArguments
    let executable := run host arguments
    ((∀ content, host.entry path ≠ .ok (.file content)) →
      ∀ r ∈ [tree, program, text], r.status = 1 ∧ Event.outputText r.log = []) ∧
    ∀ content, host.entry path = .ok (.file content) →
      (tree.status = 0 ↔ program.status = 0) ∧
      (∀ r ∈ [tree, program], r.status ≠ 0 → ∃ message, r.Rejects message) ∧
      (∀ r ∈ [tree, program], ∀ message, r.Rejects message ↔
        text.FailsWith (ascii "parse: " ++ message) ∧ executable.FailsWith (ascii "parse: " ++ message)) ∧
      (tree.status = 0 → ∃ root, parse path (tokenize path content) = .ok root ∧
        Event.outputText tree.log = root.render ∧ Event.outputText program.log = root.lower.render ∧
        match root.lower.toC with
        | .ok source => text.status = 0 ∧ Event.outputText text.log = source ++ ascii "\n" ∧
            ∀ i ∈ Event.invocations executable.log, i.source = source
        | .error e => text.FailsWith (ascii "generate: " ++ e.message) ∧ Event.invocations executable.log = []) ∧
      ∀ coming, Input.Clean coming → Input.incoming coming = content →
        ∀ c : Compiler, c.fileToC host path = c.toC path coming := by
  obtain ⟨o, ho, htext⟩ := htext.run_text
  obtain ⟨o', ho', hexecutable⟩ := hexecutable.run_executable
  rw [htree.run_tree, hprogram.run_program, htext, hexecutable]
  simp only [List.forall_mem_cons, List.not_mem_nil, false_imp_iff, implies_true, and_true]
  constructor
  · intro hunread
    exact ⟨listTree_unread hunread _, listTree_unread hunread _, fileToC_unread hunread _⟩
  · intro content hfile
    have hcoming (coming : List Delivery) (hc : Input.Clean coming) (hi : Input.incoming coming = content)
        (c : Compiler) : c.fileToC host path = c.toC path coming := by
      simp only [Compiler.fileToC, hfile, Compiler.deliveries, c.toC_of_clean hc, hi]
    rcases file_cases hfile with ⟨e, hlist, hjob⟩ | ⟨root, hparse, hlist, hjob⟩
    · rw [hlist, hlist, hjob (compiler o) ho, compile_of_error (hjob (compiler o') ho')]
      have hrejects : (fail (ascii "Parse error: " ++ e.message ++ ascii "\n")).Rejects e.message :=
        rejects_fail_iff.2 rfl
      have hreason (message : Bytes) :
          (fail (ascii "Parse error: " ++ e.message ++ ascii "\n")).Rejects message ↔
            (ofJob host ⟨[], .error (.parse e)⟩).FailsWith (ascii "parse: " ++ message) ∧
            (ofJob host ⟨[], .error (.parse e)⟩).FailsWith (ascii "parse: " ++ message) := by
        rw [and_self, rejects_fail_iff, failsWith_ofJob_iff]
        exact (List.append_right_inj _).symm
      refine ⟨.rfl, ⟨fun _ => ⟨_, hrejects⟩, fun _ => ⟨_, hrejects⟩⟩, ⟨hreason, hreason⟩, fun hzero => ?_, hcoming⟩
      exact absurd hzero (show ¬ (1 : UInt8) = 0 by decide)
    · have hsource (i : Invocation) (hi : i ∈ Event.invocations (ofJob host ((compiler o').compile host path)).log) :
          root.lower.toC = .ok i.source := source_of_invocation hfile hparse hi
      rw [hlist, hlist, hjob (compiler o) ho]
      have hreason (listing message : Bytes) :
          (succeed listing).Rejects message ↔
            (ofJob host ⟨[], root.lower.toC.mapError .range⟩).FailsWith (ascii "parse: " ++ message) ∧
            (ofJob host ((compiler o').compile host path)).FailsWith (ascii "parse: " ++ message) :=
        iff_of_false (not_rejects_succeed _) fun h => not_failsWith_parse _ h.1
      refine ⟨.rfl, ⟨fun h => absurd rfl h, fun h => absurd rfl h⟩, ⟨hreason _, hreason _⟩, fun _ => ?_, hcoming⟩
      refine ⟨root, hparse, List.append_nil _, List.append_nil _, ?_⟩
      cases htext : root.lower.toC with
      | error e =>
        refine ⟨failsWith_ofJob_iff.2 rfl, List.eq_nil_iff_forall_not_mem.2 fun i hi => ?_⟩
        cases htext.symm.trans (hsource i hi)
      | ok source =>
        refine ⟨rfl, List.append_nil _, fun i hi => ?_⟩
        cases htext.symm.trans (hsource i hi)
        rfl

/-- A path where nothing stands; a file that ends too early; and a program that comes in two parts. -/
theorem modes_agree_early_end :
    let host : Host :=
      { entry := fun path =>
          if path = ascii "m" then .ok (.file (ascii "f("))
          else if path = ascii "p" then .ok (.file (ascii "f();")) else .error .missing
        named := fun _ => none
        located := fun _ => .error .missing
        scratch := ascii "a.c"
        elapsed := fun _ => [] }
    let list (path : Bytes) := run host [ascii "-emit-ast", path]
    let coming : List Delivery := [⟨ascii "f", none⟩, ⟨ascii "();", none⟩]
    (∀ content, host.entry (ascii "n") ≠ .ok (.file content)) ∧ (list (ascii "n")).status = 1 ∧
    (∃ message, (list (ascii "m")).Rejects message ∧ (run host [ascii "m"]).FailsWith (ascii "parse: " ++ message)) ∧
    (∃ root, parse (ascii "p") (tokenize (ascii "p") (ascii "f();")) = .ok root ∧
      Event.outputText (list (ascii "p")).log = root.render) ∧
    Input.Clean coming ∧ ∀ c : Compiler, c.fileToC host (ascii "p") = c.toC (ascii "p") coming := by
  intro host list coming
  have agree (path : Bytes) (hp : Arguments.IsPlain path) :=
    modes_agree host path _ _ _ _ (asks_switch rfl hp) (asks_switch rfl hp) (asks_switch rfl hp) (asks_nothing hp)
  obtain ⟨hnone, _⟩ := agree (ascii "n") (.inl (by decide))
  obtain ⟨_, hearly⟩ := agree (ascii "m") (.inl (by decide))
  obtain ⟨_, hright⟩ := agree (ascii "p") (.inl (by decide))
  obtain ⟨_, hreason, hsame, _⟩ := hearly (ascii "f(") rfl
  obtain ⟨_, _, _, hroot, hcoming⟩ := hright (ascii "f();") rfl
  have hunread : ∀ content, host.entry (ascii "n") ≠ .ok (.file content) := nofun
  have hclean : Input.Clean coming :=
    @Input.clean_concat [⟨ascii "f", none⟩] ⟨ascii "();", none⟩ (by simp) (.inl rfl) (by decide)
  obtain ⟨message, hmessage⟩ := hreason _ List.mem_cons_self (by decide +kernel)
  obtain ⟨root, hparse, hlist, _⟩ := hroot (by decide +kernel)
  refine ⟨hunread, (hnone hunread _ List.mem_cons_self).1, ⟨message, hmessage, ?_⟩, ⟨root, hparse, hlist⟩, hclean, ?_⟩
  · exact ((hsame _ List.mem_cons_self message).1 hmessage).2
  · exact hcoming coming hclean rfl

end CallLang.CommandLine
