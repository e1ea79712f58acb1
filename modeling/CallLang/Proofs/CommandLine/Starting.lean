import CallLang.CommandLine
import CallLang.Proofs.CommandLine.Flags
import CallLang.Proofs.Compiler.Building

/-!
# When the command starts a C compiler

A run of the command is quiet or it starts a C compiler (`quiet_or_started`). A quiet run ends with status 0 or 1, and
if it fails it writes nothing to standard output: all modes but that of an executable are quiet, and this one is until
the file has a C text and the C compiler may be started. Status 2 is left to arguments that cannot be read.

- `Report.Quiet`, `Report.Started`: the two sorts of run;
- `runs_as_asked`: what the arguments decide, by their grammar.
-/

namespace CallLang.CommandLine

/-! ## Jobs as runs -/

section Shown

variable (host : Host) (log : List Event)

@[simp] theorem invocations_shown : Event.invocations (log.map (shown host)) = Event.invocations log := by
  induction log with
  | nil => rfl
  | cons event log ih =>
    cases event with
    | started i => exact congrArg (i :: ·) ih
    | _ => exact ih

@[simp] theorem outputText_shown : Event.outputText (log.map (shown host)) = Event.outputText log := by
  induction log with
  | nil => rfl
  | cons event log ih =>
    cases event with
    | output text => exact congrArg (text ++ ·) ih
    | _ => exact ih

end Shown

namespace Report

/-- A run that starts no C compiler, and writes nothing to standard output if it fails. -/
structure Quiet (r : Report) : Prop where
  invocations_eq : Event.invocations r.log = []
  status_eq : r.status = 0 ∨ (r.status = 1 ∧ Event.outputText r.log = [])

/-- A run that starts a C compiler, and succeeds if this does: then the output of the C compiler and the path of the
executable are written. -/
structure Started (r : Report) (tool : Tool) (i : Invocation) (output : Bytes) : Prop where
  invocations_eq : Event.invocations r.log = [i]
  status_eq : r.status = if (tool i).exit = .status 0 then 0 else 1
  outputText_eq : r.status = 0 → Event.outputText r.log = (tool i).output ++ (output ++ ascii "\n")

end Report

section Modes

variable {host : Host} {o : Options} {path : Bytes}

theorem quiet_succeed (text : Bytes) : (succeed text).Quiet :=
  ⟨rfl, .inl rfl⟩

theorem quiet_fail (message : Bytes) : (fail message).Quiet :=
  ⟨rfl, .inr ⟨rfl, rfl⟩⟩

theorem quiet_listTokens : (listTokens host path).Quiet := by
  unfold listTokens
  split
  · exact quiet_fail _
  · exact quiet_succeed _

theorem quiet_listTree (render : Tree → Bytes) : (listTree host path render).Quiet := by
  unfold listTree
  split
  · exact quiet_fail _
  · split
    · exact quiet_fail _
    · exact quiet_succeed _

/-- A job that starts nothing and writes nothing is a quiet run. -/
theorem quiet_ofJob {job : Job Bytes} (hs : Event.invocations job.log = []) (ho : Event.outputText job.log = []) :
    (ofJob host job).Quiet := by
  unfold ofJob
  split
  · refine ⟨?_, .inl rfl⟩
    rw [Event.invocations_append, invocations_shown, hs]
    rfl
  · refine ⟨?_, .inr ⟨rfl, ?_⟩⟩
    · rw [Event.invocations_append, invocations_shown, hs]
      rfl
    · rw [Event.outputText_append, outputText_shown, ho]
      rfl

theorem quiet_fileToC (c : Compiler) : (ofJob host (c.fileToC host path)).Quiet := by
  rcases c.fileToC_cases host path with ⟨e, _, h⟩ | ⟨source, _, h⟩
  · rw [h]
    exact quiet_ofJob (c.only_report _).1 (c.only_report _).2.1
  · rw [h]
    exact quiet_ofJob (c.only_report _).1 (c.only_report _).2.1

/-- A job that starts a C compiler and ends as this does is a run that starts it. -/
theorem started_ofJob {job : Job Bytes} {tool : Tool} {i : Invocation} {output : Bytes}
    (hs : Event.invocations job.log = [i]) (ho : Event.outputText job.log = (tool i).output)
    (hr : if (tool i).exit = .status 0 then job.result = .ok output else ∃ e, job.result = .error e) :
    (ofJob host job).Started tool i output := by
  split at hr
  · next hz =>
    simp only [ofJob, hr]
    refine ⟨?_, by rw [if_pos hz], fun _ => ?_⟩
    · rw [Event.invocations_append, invocations_shown, hs]
      rfl
    · rw [Event.outputText_append, outputText_shown, ho]
      simp [Event.outputText]
  · next hz =>
    obtain ⟨e, he⟩ := hr
    simp only [ofJob, he]
    refine ⟨?_, by rw [if_neg hz], fun hzero => absurd hzero (show ¬ (1 : UInt8) = 0 by decide)⟩
    rw [Event.invocations_append, invocations_shown, hs]
    rfl

/-- Compiling a file is quiet, or it starts a C compiler on the C text of the file. -/
theorem quiet_or_started_compile :
    (ofJob host ((compiler o).compile host path)).Quiet ∨
    ∃ source tool, Translates host path source ∧
      Toolchain.Startable host o.command ((compiler o).toolchain.invocation host source).arguments tool ∧
      (ofJob host ((compiler o).compile host path)).Started tool ((compiler o).toolchain.invocation host source)
        o.output := by
  have hreport := (compiler o).only_report
  rcases (compiler o).compile_cases host path with ⟨e, _, _, h⟩ | ⟨source, log, result, hsource, _, hends, h⟩
  · rw [h]
    exact .inl (quiet_ofJob (hreport _).1 (hreport _).2.1)
  · obtain ⟨hs, ho, _⟩ := hreport [.lex, .parse, .lower, .generate]
    obtain ⟨hs', ho', _⟩ := hreport [.compile]
    rw [h]
    rcases hends.started_or with ⟨hnone, hsilent, _⟩ | ⟨tool, rest, hstart, rfl, hrest, htext, hresult⟩
    · refine .inl (quiet_ofJob ?_ ?_)
      · rw [Event.invocations_append, Event.invocations_append, hs, hs', hnone]
        rfl
      · rw [Event.outputText_append, Event.outputText_append, ho, ho', hsilent]
        rfl
    · refine .inr ⟨source, tool, hsource, hstart, started_ofJob ?_ ?_ ?_⟩
      · rw [Event.invocations_append, Event.invocations_append, hs, hs', List.append_nil]
        exact congrArg (_ :: ·) hrest
      · rw [Event.outputText_append, Event.outputText_append, ho, ho', List.append_nil]
        exact htext
      · split at hresult
        · next hz => rw [if_pos hz, hresult]; rfl
        · next hz =>
          obtain ⟨e, he⟩ := hresult
          rw [if_neg hz, he]
          exact ⟨_, rfl⟩

/-- What is done with a file is quiet, or no switch asks for anything else than an executable. -/
theorem runFile_cases :
    (runFile host o path).Quiet ∨
    (o.emitTokens = false ∧ o.emitTree = false ∧ o.emitProgram = false ∧ o.emitC = false ∧
      runFile host o path = ofJob host ((compiler o).compile host path)) := by
  unfold runFile
  cases o.emitTokens with
  | true => exact .inl quiet_listTokens
  | false =>
    cases o.emitTree with
    | true => exact .inl (quiet_listTree _)
    | false =>
      cases o.emitProgram with
      | true => exact .inl (quiet_listTree _)
      | false =>
        cases o.emitC with
        | true => exact .inl (quiet_fileToC _)
        | false => exact .inr ⟨rfl, rfl, rfl, rfl, rfl⟩

end Modes

/-! ## Whole runs -/

open Arguments (Reads)

/-- The switches that ask for something else than an executable. -/
def otherModes : List Bytes :=
  ["version", "emit-tokens", "emit-ast", "emit-ic", "emit-c"].map ascii

/-- A run on arguments that can be read is quiet, or it was asked for an executable of one file that has a C text. -/
theorem quiet_or_started {host : Host} {arguments left : List Bytes} {flags : List Flag}
    (h : Reads arguments flags (.left left)) :
    (run host arguments).Quiet ∨
    ∃ path source tool, left = [path] ∧ (∀ name ∈ otherModes, Flag.isOn name flags = false) ∧
      Translates host path source ∧
      let toolchain := (compiler (.ofFlags flags)).toolchain
      Toolchain.Startable host toolchain.command (toolchain.invocation host source).arguments tool ∧
      (run host arguments).Started tool (toolchain.invocation host source) toolchain.output := by
  have hread : Options.read {} arguments = .given (.ofFlags flags) left := Options.read_of_reads h
  simp only [run, hread]
  split
  · exact .inl (quiet_succeed _)
  · next hversion =>
    split
    · next path =>
      rcases @runFile_cases host (.ofFlags flags) path with hq | ⟨htokens, htree, hprogram, htext, hrun⟩
      · exact .inl hq
      · rw [hrun]
        rcases @quiet_or_started_compile host (.ofFlags flags) path with hq | ⟨source, tool, hs, hstart, hstarted⟩
        · exact .inl hq
        · refine .inr ⟨path, source, tool, rfl, ?_, hs, hstart, hstarted⟩
          intro name hn
          simp only [otherModes, List.map_cons, List.map_nil, List.mem_cons, List.not_mem_nil, or_false] at hn
          rcases hn with rfl | rfl | rfl | rfl | rfl
          · exact Bool.eq_false_iff.2 hversion
          · exact htokens
          · exact htree
          · exact hprogram
          · exact htext
    · exact .inl (quiet_fail _)

/-- A run ends with status 2 on arguments that are wrong, and it is quiet or starts a C compiler on others. -/
theorem run_cases (host : Host) (arguments : List Bytes) :
    ((∃ flags e, Reads arguments flags (.wrong e)) ∧ (run host arguments).status = 2 ∧
      Event.outputText (run host arguments).log = [] ∧ Event.invocations (run host arguments).log = []) ∨
    ((¬ ∃ flags e, Reads arguments flags (.wrong e)) ∧
      ((run host arguments).Quiet ∨ ∃ flags path source tool,
        Reads arguments flags (.left [path]) ∧ (∀ name ∈ otherModes, Flag.isOn name flags = false) ∧
        Translates host path source ∧
        let toolchain := (compiler (.ofFlags flags)).toolchain
        Toolchain.Startable host toolchain.command (toolchain.invocation host source).arguments tool ∧
        (run host arguments).Started tool (toolchain.invocation host source) toolchain.output)) := by
  obtain ⟨flags, ending, h⟩ := Options.exists_reads arguments
  have hread := Options.read_of_reads h
  cases ending with
  | wrong e =>
    have hr : run host arguments = ⟨2, [.diagnostics (e.message ++ ascii "\n" ++ usage)]⟩ := by
      simp only [run, hread, Arguments.Ending.request]
    rw [hr]
    exact .inl ⟨⟨flags, e, h⟩, rfl, rfl, rfl⟩
  | help =>
    have hr : run host arguments = ⟨0, [.diagnostics usage]⟩ := by simp only [run, hread, Arguments.Ending.request]
    refine .inr ⟨?_, .inl (hr ▸ ⟨rfl, .inl rfl⟩)⟩
    rintro ⟨flags', e, h'⟩
    rw [Options.read_of_reads h'] at hread
    cases hread
  | left left =>
    refine .inr ⟨?_, ?_⟩
    · rintro ⟨flags', e, h'⟩
      rw [Options.read_of_reads h'] at hread
      cases hread
    · refine (quiet_or_started h).imp_right ?_
      rintro ⟨path, source, tool, rfl, hstarted⟩
      exact ⟨flags, path, source, tool, h, hstarted⟩

/-- **The command does what it is asked.** A C compiler is started only if the arguments can be read, no switch asks for
something else, one argument is left, and the file there has a C text. It is the only one; the last two of its arguments
are `-o` and the last value given for it, or the default; the run succeeds if and only if it does, and then writes this
path on a line at the end of standard output. The exit status is 2 if and only if the arguments are wrong, 0 if they ask
for help, and never greater; a run that fails and starts nothing leaves standard output empty. -/
theorem runs_as_asked (host : Host) (arguments : List Bytes) :
    let r := run host arguments
    (∀ i ∈ Event.invocations r.log, ∃ flags path tool,
      Reads arguments flags (.left [path]) ∧ (∀ name ∈ otherModes, Flag.isOn name flags = false) ∧
      Translates host path i.source ∧ Toolchain.Startable host i.command i.arguments tool ∧
      Event.invocations r.log = [i] ∧
      let output := Flag.lastValue (ascii "o") flags (ascii "./a.out")
      (∃ front, i.arguments = front ++ [ascii "-o", output]) ∧
      (r.status = 0 ↔ (tool i).exit = .status 0) ∧
      (r.status = 0 → Event.outputText r.log = (tool i).output ++ (output ++ ascii "\n"))) ∧
    (r.status = 2 ↔ ∃ flags e, Reads arguments flags (.wrong e)) ∧
    ((∃ flags, Reads arguments flags .help) → r.status = 0) ∧
    (r.status = 0 ∨ r.status = 1 ∨ r.status = 2) ∧
    (r.status ≠ 0 → Event.invocations r.log = [] → Event.outputText r.log = []) := by
  intro r
  have hhelp : (∃ flags, Reads arguments flags .help) → r.status = 0 := by
    rintro ⟨flags, h⟩
    have hread := Options.read_of_reads h
    simp only [r, run, hread, Arguments.Ending.request]
  rcases run_cases host arguments with ⟨hwrong, hstatus, hsilent, hnone⟩ | ⟨hright, hquiet | hstarted⟩
  · refine ⟨?_, ⟨fun _ => hwrong, fun _ => hstatus⟩, hhelp, .inr (.inr hstatus), fun _ _ => hsilent⟩
    intro i hi
    rw [hnone] at hi
    cases hi
  · obtain ⟨hnone, hstatus⟩ := hquiet
    refine ⟨?_, ⟨?_, fun h => absurd h hright⟩, hhelp, hstatus.imp id fun h => .inl h.1, ?_⟩
    · intro i hi
      rw [hnone] at hi
      cases hi
    · intro htwo
      rcases hstatus with h | ⟨h, _⟩ <;> exact absurd (h.symm.trans htwo) (by decide)
    · intro hne _
      exact (hstatus.resolve_left hne).2
  · obtain ⟨flags, path, source, tool, hreads, hmodes, hsource, hstart, hstarts, hstatus, houtput⟩ := hstarted
    have hzero :
        r.status = 0 ↔ (tool ((compiler (.ofFlags flags)).toolchain.invocation host source)).exit = .status 0 := by
      rw [hstatus]
      split <;> simp_all
    refine ⟨?_, ⟨?_, fun h => absurd h hright⟩, hhelp, ?_, ?_⟩
    · intro i hi
      rw [hstarts] at hi
      obtain rfl := List.mem_singleton.1 hi
      refine ⟨flags, path, tool, hreads, hmodes, hsource, hstart, hstarts, ?_, hzero, houtput⟩
      exact ⟨Toolchain.defaultFlags ++ [host.scratch], by simp [Toolchain.invocation]; rfl⟩
    · intro htwo
      rw [hstatus] at htwo
      split at htwo <;> exact absurd htwo (by decide)
    · rw [hstatus]
      split
      · exact .inl rfl
      · exact .inr (.inl rfl)
    · intro _ hnone
      rw [hstarts] at hnone
      cases hnone

/-- Flags that are given twice, and two dashes before the file; a request for help; and no argument at all. -/
theorem runs_as_asked_repeated :
    let host : Host :=
      { entry := fun path => if path = ascii "m" then .ok (.file (ascii "f();")) else .error .missing
        named := fun name => some (ascii "/bin/" ++ name, fun _ => {})
        located := fun _ => .error .missing
        scratch := ascii "a.c"
        elapsed := fun _ => [] }
    let arguments := ["-o", "x", "-emit-c", "--o=y", "-emit-c=false", "--", "m"].map ascii
    let i : Invocation := ⟨ascii "gcc", Toolchain.defaultFlags ++ ["a.c", "-o", "y"].map ascii, ascii "f();"⟩
    i ∈ Event.invocations (run host arguments).log ∧
    (∃ flags path, Reads arguments flags (.left [path]) ∧ Translates host path (ascii "f();") ∧
      Flag.lastValue (ascii "o") flags (ascii "./a.out") = ascii "y") ∧
    (∃ flags, Reads [ascii "-h"] flags .help) ∧ (run host [ascii "-h"]).status = 0 ∧
    (run host []).status ≠ 0 ∧ Event.invocations (run host []).log = [] ∧ Event.outputText (run host []).log = [] := by
  intro host arguments i
  obtain ⟨hstarts, _⟩ := runs_as_asked host arguments
  obtain ⟨_, _, hhelp, _⟩ := runs_as_asked host [ascii "-h"]
  obtain ⟨_, _, _, _, hfails⟩ := runs_as_asked host []
  have hi : i ∈ Event.invocations (run host arguments).log := by decide +kernel
  have hspells : Arguments.Spells (ascii "-h") (ascii "h") none := ⟨.inl rfl, by decide, by decide, by decide⟩
  have hflags : ∃ flags, Reads [ascii "-h"] flags .help := ⟨[], _, .nil _, .help hspells (by decide)⟩
  have hone : (run host []).status ≠ 0 := by decide +kernel
  have hnone : Event.invocations (run host []).log = [] := by decide +kernel
  obtain ⟨flags, path, tool, hreads, _, hsource, _, _, ⟨front, hfront⟩, _⟩ := hstarts i hi
  have hend : (Toolchain.defaultFlags ++ [ascii "a.c"]) ++ [ascii "-o", ascii "y"] =
      front ++ [ascii "-o", Flag.lastValue (ascii "o") flags (ascii "./a.out")] := hfront
  have hlast := (List.append_inj' hend rfl).2
  refine ⟨hi, ⟨flags, path, hreads, hsource, ?_⟩, hflags, hhelp hflags, hone, hnone, hfails hone hnone⟩
  exact (List.cons.inj (List.cons.inj hlast).2).1.symm

end CallLang.CommandLine
