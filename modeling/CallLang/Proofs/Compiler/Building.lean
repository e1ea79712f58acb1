import CallLang.Proofs.Compiler.Layout

/-!
# Executables are made whole or not at all

A compilation takes one of few courses, and its log and its result are those of the course: the file gives no C text
(`Untranslated`), or the C text goes to a build, which ends in one of six ways (`Toolchain.BuildEnds`). All else is
read off the logs of these courses.

- `Compiler.fileToC_cases`: the C text of a file is decided by what stands at its path;
- `Toolchain.find_eq_ok_iff`: which C compilers may be started;
- `Toolchain.build_ends`, `Toolchain.BuildEnds.scratchFiles_eq`: how a build ends, and what is left of its scratch file;
- `compile_all_or_nothing` puts them together.
-/

namespace CallLang

/-! ## Logs -/

namespace Event

variable {a b log : List Event}

@[simp] theorem stages_append : stages (a ++ b) = stages a ++ stages b :=
  List.filterMap_append

@[simp] theorem invocations_append : invocations (a ++ b) = invocations a ++ invocations b :=
  List.filterMap_append

@[simp] theorem outputText_append : outputText (a ++ b) = outputText a ++ outputText b :=
  List.flatMap_append

/-- The scratch files are carried on from one part of a log to the next. -/
@[simp] theorem scratchFiles_append (present : List Bytes) :
    scratchFiles present (a ++ b) = scratchFiles (scratchFiles present a) b := by
  induction a generalizing present with
  | nil => rfl
  | cons event a ih => cases event <;> exact ih _

/-- A log without starts has no start in it. -/
theorem not_started_of_invocations (h : invocations log = []) (before after : List Event) (i : Invocation) :
    log ≠ before ++ .started i :: after := by
  rintro rfl
  rw [invocations_append] at h
  exact absurd (List.append_eq_nil_iff.1 h).2 (by simp [invocations])

/-- A log with one start is split there in one way. -/
theorem split_started {front rest before after : List Event} {i j : Invocation} (hf : invocations front = [])
    (hr : invocations rest = []) (h : front ++ .started i :: rest = before ++ .started j :: after) :
    before = front ∧ j = i ∧ after = rest := by
  rcases List.append_eq_append_iff.1 h with ⟨middle, hb, hm⟩ | ⟨middle, hb, hm⟩
  · cases middle with
    | nil =>
      cases hm
      exact ⟨by rw [hb, List.append_nil], rfl, rfl⟩
    | cons event middle => exact absurd (List.cons.inj hm).2 (not_started_of_invocations hr middle after j)
  · cases middle with
    | nil =>
      cases hm
      exact ⟨by rw [hb, List.append_nil], rfl, rfl⟩
    | cons event middle =>
      rw [← (List.cons.inj hm).1] at hb
      exact absurd hb (not_started_of_invocations hf before middle j)

end Event

namespace Compiler

variable (c : Compiler) (reached : List Stage)

theorem stages_report : Event.stages (c.report reached) = if c.traced then reached else [] := by
  unfold report
  split
  · induction reached with
    | nil => rfl
    | cons stage reached ih => exact congrArg (stage :: ·) ih
  · rfl

/-- A report about stages is nothing but this. -/
@[simp] theorem only_report : Event.invocations (c.report reached) = [] ∧ Event.outputText (c.report reached) = [] ∧
    ∀ present, Event.scratchFiles present (c.report reached) = present := by
  unfold report
  split
  · induction reached with
    | nil => exact ⟨rfl, rfl, fun _ => rfl⟩
    | cons stage reached ih => exact ih
  · exact ⟨rfl, rfl, fun _ => rfl⟩

end Compiler

/-! ## Builds -/

namespace Toolchain

/-- A C compiler that may be started: its name or its path leads to it, nobody has called the compilation off, and no
argument holds a null byte. -/
structure Startable (host : Host) (command : Bytes) (arguments : List Bytes) (tool : Tool) : Prop where
  found : (command ≠ [] ∧ slash ∉ command ∧ ∃ path, host.named command = some (path, tool)) ∨
    (command ≠ [slash] ∧ slash ∈ command ∧ host.located command = .ok tool)
  live : host.interrupted = false
  whole : ∀ a ∈ arguments, 0 ∉ a

/-- The start of the C compiler on a C text. -/
def invocation (host : Host) (t : Toolchain) (source : Bytes) : Invocation where
  command := t.command
  arguments := t.flags ++ [host.scratch, ascii "-o", t.output]
  source := source

/-- How a build ends, with its log. -/
inductive BuildEnds (host : Host) (t : Toolchain) (source : Bytes) : List Event → Except BuildError Bytes → Prop where
  /-- The scratch file cannot be made. -/
  | uncreated {problem : PathProblem} (hp : host.scratchProblem = some problem) :
      BuildEnds host t source [] (.error (.scratch host.scratch problem))
  /-- The C text cannot be put into the scratch file. -/
  | unwritten {fault : WriteFault} (hp : host.scratchProblem = none) (hw : host.writeFault = some fault) :
      BuildEnds host t source [.created host.scratch, .removed host.scratch]
        (.error (.unwritten host.scratch fault))
  /-- The command is known, and the compilation has been called off. -/
  | interrupted {found : Bytes × Except PathProblem Tool} (hp : host.scratchProblem = none)
      (hw : host.writeFault = none) (hl : lookUp host t.command = .ok found) (hi : host.interrupted = true) :
      BuildEnds host t source [.created host.scratch, .removed host.scratch]
        (.error (.toolchain ⟨t.command, (t.invocation host source).arguments, [], .interrupted⟩))
  /-- The C compiler cannot be found, or it cannot be started. -/
  | unstarted {cause : ToolCause} (hp : host.scratchProblem = none) (hw : host.writeFault = none)
      (hf : find host t.command (t.invocation host source).arguments = .error cause) (hc : cause ≠ .interrupted) :
      BuildEnds host t source [.created host.scratch, .removed host.scratch]
        (.error (.toolchain ⟨t.command, (t.invocation host source).arguments, [], cause⟩))
  /-- The C compiler is started and fails. -/
  | failed {tool : Tool} (hp : host.scratchProblem = none) (hw : host.writeFault = none)
      (hs : Startable host t.command (t.invocation host source).arguments tool)
      (hf : (tool (t.invocation host source)).exit ≠ .status 0) :
      BuildEnds host t source
        ([.created host.scratch] ++ .started (t.invocation host source) ::
          (t.passedOn (tool (t.invocation host source)) ++ [.removed host.scratch]))
        (.error (.toolchain ⟨t.command, (t.invocation host source).arguments,
          (tool (t.invocation host source)).diagnostics, .exited (tool (t.invocation host source)).exit⟩))
  /-- The C compiler is started and succeeds. -/
  | built {tool : Tool} (hp : host.scratchProblem = none) (hw : host.writeFault = none)
      (hs : Startable host t.command (t.invocation host source).arguments tool)
      (hf : (tool (t.invocation host source)).exit = .status 0) :
      BuildEnds host t source
        ([.created host.scratch] ++ .started (t.invocation host source) ::
          (t.passedOn (tool (t.invocation host source)) ++ [.removed host.scratch]))
        (.ok t.output)

variable {host : Host} {t : Toolchain} {source command : Bytes} {arguments : List Bytes} {tool : Tool}

theorem exists_lookUp_iff : (∃ path, lookUp host command = .ok (path, .ok tool)) ↔
    (command ≠ [] ∧ slash ∉ command ∧ ∃ path, host.named command = some (path, tool)) ∨
    (command ≠ [slash] ∧ slash ∈ command ∧ host.located command = .ok tool) := by
  unfold lookUp
  by_cases hnil : command = []
  · simp [hnil]
  by_cases hroot : command = [slash]
  · simp [hroot]
  by_cases hpath : slash ∈ command
  · simp [hnil, hroot, hpath]
  · cases hn : host.named command with
    | none => simp [hnil, hroot, hpath]
    | some found =>
      obtain ⟨path, other⟩ := found
      simp [hnil, hroot, hpath]

/-- The C compiler that is found is one that may be started. -/
theorem find_eq_ok_iff : find host command arguments = .ok tool ↔ Startable host command arguments tool := by
  have hlook := @exists_lookUp_iff host command tool
  unfold find
  constructor
  · intro h
    split at h
    · cases h
    · next path found hl =>
      split at h
      · cases h
      · next hlive =>
        split at h
        · cases h
        · next hwhole =>
          cases found with
          | error problem => cases h
          | ok other =>
            cases h
            exact ⟨hlook.1 ⟨path, hl⟩, by simpa using hlive, by simpa using hwhole⟩
  · rintro ⟨hfound, hlive, hwhole⟩
    obtain ⟨path, hl⟩ := hlook.2 hfound
    have hw : ¬ arguments.any (0 ∈ ·) = true := by simpa using hwhole
    simp only [hl, hlive, if_neg hw, Bool.false_eq_true, if_false]
    rfl

/-- A compilation that was called off ends so, if the command is known at all. -/
theorem find_eq_interrupted_iff :
    find host command arguments = .error .interrupted ↔
      host.interrupted = true ∧ ∃ found, lookUp host command = .ok found := by
  have hnot : lookUp host command ≠ .error .interrupted := by
    unfold lookUp
    split
    · simp
    · split
      · simp
      · split
        · simp
        · split <;> simp
  unfold find
  cases hl : lookUp host command with
  | error cause =>
    rw [hl] at hnot
    simpa using hnot
  | ok found =>
    cases host.interrupted with
    | true => simp
    | false =>
      simp only [Bool.false_eq_true, if_false, false_and, iff_false]
      by_cases hw : arguments.any (0 ∈ ·) = true
      · simp [hw]
      · rw [if_neg hw]
        cases found.2 <;> simp [Except.mapError]

@[simp] theorem only_passedOn (t : Toolchain) (completion : Completion) :
    Event.stages (t.passedOn completion) = [] ∧ Event.invocations (t.passedOn completion) = [] ∧
    Event.outputText (t.passedOn completion) = (if t.streaming then completion.output else []) ∧
    ∀ present, Event.scratchFiles present (t.passedOn completion) = present := by
  unfold passedOn
  cases t.streaming
  · exact ⟨rfl, rfl, rfl, fun _ => rfl⟩
  · refine ⟨rfl, rfl, ?_, fun _ => rfl⟩
    simp [Event.outputText]

/-- A C compiler that may be started is started on the C text. -/
theorem compile_of_startable (hs : Startable host t.command (t.invocation host source).arguments tool) :
    t.compile host source =
      (.started (t.invocation host source) :: t.passedOn (tool (t.invocation host source)),
        if (tool (t.invocation host source)).exit = .status 0 then .ok t.output
        else .error (.toolchain ⟨t.command, (t.invocation host source).arguments,
          (tool (t.invocation host source)).diagnostics, .exited (tool (t.invocation host source)).exit⟩)) := by
  have hf : find host t.command (t.arguments host.scratch) = .ok tool := find_eq_ok_iff.2 hs
  simp only [compile, hf]
  rfl

/-- Every build ends in one of the ways. -/
theorem build_ends (host : Host) (t : Toolchain) (source : Bytes) :
    BuildEnds host t source (t.build host source).1 (t.build host source).2 := by
  cases hp : host.scratchProblem with
  | some problem =>
    simp only [build, hp]
    exact .uncreated hp
  | none =>
    cases hw : host.writeFault with
    | some fault =>
      simp only [build, writeAndCompile, hp, hw]
      exact .unwritten hp hw
    | none =>
      cases hf : find host t.command (t.arguments host.scratch) with
      | error cause =>
        simp only [build, writeAndCompile, compile, hp, hw, hf]
        by_cases hc : cause = .interrupted
        · subst hc
          obtain ⟨hi, found, hl⟩ := find_eq_interrupted_iff.1 hf
          exact .interrupted hp hw hl hi
        · exact .unstarted hp hw hf hc
      | ok tool =>
        have hs : Startable host t.command (t.invocation host source).arguments tool := find_eq_ok_iff.1 hf
        simp only [build, writeAndCompile, hp, hw, compile_of_startable hs]
        split
        · next hz => exact .built hp hw hs hz
        · next hz => exact .failed hp hw hs hz

namespace BuildEnds

variable {log : List Event} {result : Except BuildError Bytes}

/-- Either a build starts nothing, passes nothing on and fails, or it starts a C compiler that may be started, passes on
what this writes, and succeeds if it does. -/
theorem started_or (h : BuildEnds host t source log result) :
    (Event.invocations log = [] ∧ Event.outputText log = [] ∧ ∃ e, result = .error e) ∨
    ∃ tool rest, Startable host t.command (t.invocation host source).arguments tool ∧
      log = [.created host.scratch] ++ .started (t.invocation host source) :: rest ∧ Event.invocations rest = [] ∧
      Event.outputText rest = (if t.streaming then (tool (t.invocation host source)).output else []) ∧
      (if (tool (t.invocation host source)).exit = .status 0 then result = .ok t.output
        else ∃ e, result = .error e) := by
  have hrest (tool : Tool) :
      let rest := t.passedOn (tool (t.invocation host source)) ++ [.removed host.scratch]
      Event.invocations rest = [] ∧
      Event.outputText rest = (if t.streaming then (tool (t.invocation host source)).output else []) := by
    obtain ⟨_, hstarts, houtput, _⟩ := t.only_passedOn (tool (t.invocation host source))
    intro rest
    rw [Event.invocations_append, Event.outputText_append, hstarts, houtput]
    exact ⟨rfl, List.append_nil _⟩
  cases h with
  | uncreated => exact .inl ⟨rfl, rfl, _, rfl⟩
  | unwritten => exact .inl ⟨rfl, rfl, _, rfl⟩
  | interrupted => exact .inl ⟨rfl, rfl, _, rfl⟩
  | unstarted => exact .inl ⟨rfl, rfl, _, rfl⟩
  | @failed tool _ _ hs hz =>
    exact .inr ⟨tool, _, hs, rfl, (hrest tool).1, (hrest tool).2, by rw [if_neg hz]; exact ⟨_, rfl⟩⟩
  | @built tool _ _ hs hz => exact .inr ⟨tool, _, hs, rfl, (hrest tool).1, (hrest tool).2, by rw [if_pos hz]⟩

/-- A build reports no stage and takes its scratch file away again. -/
theorem scratchFiles_eq (h : BuildEnds host t source log result) :
    Event.stages log = [] ∧ ∀ present, Event.scratchFiles present log = present := by
  have hran (completion : Completion) :
      let log := [.created host.scratch] ++ .started (t.invocation host source) ::
        (t.passedOn completion ++ [.removed host.scratch])
      Event.stages log = [] ∧ ∀ present, Event.scratchFiles present log = present := by
    obtain ⟨hstages, _, _, hfiles⟩ := t.only_passedOn completion
    constructor
    · rw [List.append_cons, Event.stages_append, Event.stages_append, Event.stages_append, hstages]
      rfl
    · intro present
      rw [List.append_cons, Event.scratchFiles_append, Event.scratchFiles_append, hfiles]
      exact List.erase_cons_head _ _
  cases h with
  | uncreated => exact ⟨rfl, fun _ => rfl⟩
  | unwritten => exact ⟨rfl, fun _ => List.erase_cons_head _ _⟩
  | interrupted => exact ⟨rfl, fun _ => List.erase_cons_head _ _⟩
  | unstarted => exact ⟨rfl, fun _ => List.erase_cons_head _ _⟩
  | failed => exact hran _
  | built => exact hran _

theorem eq_output {path : Bytes} (h : BuildEnds host t source log (.ok path)) : path = t.output := by
  cases h
  rfl

/-- In a log that holds that of a build, there is no start but that of the build. -/
theorem eq_invocation (h : BuildEnds host t source log result) {front back before after : List Event} {i : Invocation}
    (hf : Event.invocations front = []) (hb : Event.invocations back = [])
    (hs : front ++ log ++ back = before ++ .started i :: after) :
    i = t.invocation host source ∧ before = front ++ [.created host.scratch] ∧ Event.invocations after = [] := by
  rcases h.started_or with ⟨hnone, _⟩ | ⟨tool, rest, _, rfl, hrest, _⟩
  · refine absurd hs (Event.not_started_of_invocations ?_ before after i)
    simp only [Event.invocations_append, hf, hnone, hb, List.append_nil]
  · have hfront : Event.invocations (front ++ [.created host.scratch]) = [] := by
      rw [Event.invocations_append, hf]
      rfl
    have hback : Event.invocations (rest ++ back) = [] := by
      rw [Event.invocations_append, hrest, hb, List.append_nil]
    rw [← List.append_assoc, List.append_assoc, List.cons_append] at hs
    obtain ⟨rfl, rfl, rfl⟩ := Event.split_started hfront hback hs
    exact ⟨rfl, rfl, hback⟩

end BuildEnds

end Toolchain

/-! ## Translations -/

/-- Why what stands at a path has no C text: it cannot be opened, or not be read, or it is no program, or it is one with
a wrong exit code. -/
inductive Untranslated (host : Host) (path : Bytes) : Failure → Prop where
  | unopened {problem : PathProblem} (h : host.entry path = .error problem) :
      Untranslated host path (.unopened path problem)
  | unread (h : host.entry path = .ok .directory) :
      Untranslated host path (.unread path (PathProblem.isDirectory.readMessage path))
  | parse {content : Bytes} {e : ParseError} (h : host.entry path = .ok (.file content))
      (he : CallLang.parse path (tokenize path content) = .error e) : Untranslated host path (.parse e)
  | range {content : Bytes} {tree : Tree} {e : RangeError} (h : host.entry path = .ok (.file content))
      (ht : CallLang.parse path (tokenize path content) = .ok tree) (he : tree.lower.toC = .error e) :
      Untranslated host path (.range e)

/-- What stands at a path has a C text: it is a file with a program. -/
def Translates (host : Host) (path source : Bytes) : Prop :=
  ∃ content tree, host.entry path = .ok (.file content) ∧ parse path (tokenize path content) = .ok tree ∧
    tree.lower.toC = .ok source

/-- The stages of a compilation, in order. -/
def Stage.all : List Stage :=
  [.lex, .parse, .lower, .generate, .compile]

/-- The stages that are over when a compilation ends with a result. -/
def stagesOver : Except Failure Bytes → List Stage
  | .error (.unopened _ _) => []
  | .error (.unread _ _) => []
  | .error (.parse _) => [.lex]
  | .error (.range _) => [.lex, .parse, .lower]
  | .error (.build _) => Stage.all
  | .ok _ => Stage.all

theorem stagesOver_prefix (result : Except Failure Bytes) : stagesOver result <+: Stage.all := by
  unfold stagesOver
  split <;> decide

/-- A delivery that brings nothing but a failure gives no token and this failure. -/
theorem Scanner.run_failed (file message : Bytes) :
    ∃ s, (Scanner.ofDeliveries file [⟨[], some (.failed message)⟩]).run = ([], s) ∧ s.failure = some message := by
  have hn : (Scanner.ofDeliveries file [⟨[], some (.failed message)⟩]).next =
      (none, { file, input := ⟨[], none, []⟩, failure := some message }) := rfl
  have ht : (Scanner.ofDeliveries file [⟨[], some (.failed message)⟩]).token? =
      (none, { file, input := ⟨[], none, []⟩, failure := some message }) := by
    simp only [token?, nextSolid_end hn]
  exact ⟨_, run_stop ht, rfl⟩

namespace Compiler

variable {host : Host} {path : Bytes}

/-- The C text of what stands at a path, and the stages that are over by then. -/
theorem fileToC_cases (host : Host) (c : Compiler) (path : Bytes) :
    (∃ e, Untranslated host path e ∧ c.fileToC host path = ⟨c.report (stagesOver (.error e)), .error e⟩) ∨
    ∃ source, Translates host path source ∧
      c.fileToC host path = ⟨c.report [.lex, .parse, .lower, .generate], .ok source⟩ := by
  have hnone : c.report [] = [] := by
    unfold report
    split <;> rfl
  unfold fileToC
  cases hentry : host.entry path with
  | error problem => exact .inl ⟨_, .unopened hentry, by rw [stagesOver, hnone]⟩
  | ok entry =>
    cases entry with
    | directory =>
      refine .inl ⟨_, .unread hentry, ?_⟩
      obtain ⟨s, hs, hf⟩ := Scanner.run_failed path (PathProblem.isDirectory.readMessage path)
      simp only [deliveries, toC, hs, hf, stagesOver, hnone]
    | file content =>
      dsimp only [deliveries]
      rw [toC_text]
      cases hparse : CallLang.parse path (tokenize path content) with
      | error e => exact .inl ⟨_, .parse hentry hparse, rfl⟩
      | ok tree =>
        cases htext : tree.lower.toC with
        | error e => exact .inl ⟨_, .range hentry hparse htext, by simp only [htext]; rfl⟩
        | ok source => exact .inr ⟨source, ⟨content, tree, hentry, hparse, htext⟩, by simp only [htext]⟩

/-- What a compilation does with what stands at a path: it stops where the translation does, or it builds the C text. -/
theorem compile_cases (host : Host) (c : Compiler) (path : Bytes) :
    (∃ e, Untranslated host path e ∧ (c.fileToC host path).result = .error e ∧
      c.compile host path = ⟨c.report (stagesOver (.error e)), .error e⟩) ∨
    ∃ source log result, Translates host path source ∧ (c.fileToC host path).result = .ok source ∧
      c.toolchain.BuildEnds host source log result ∧
      c.compile host path =
        ⟨c.report [.lex, .parse, .lower, .generate] ++ log ++ c.report [.compile], result.mapError .build⟩ := by
  rcases c.fileToC_cases host path with ⟨e, he, ht⟩ | ⟨source, hs, ht⟩
  · exact .inl ⟨e, he, by rw [ht], by simp only [compile, ht]⟩
  · exact .inr ⟨source, _, _, hs, by rw [ht], c.toolchain.build_ends host source, by simp only [compile, ht]⟩

end Compiler

/-- The executable that is returned; there is none if there is an error. -/
def Job.executable (job : Job Bytes) : Bytes :=
  match job.result with
  | .ok path => path
  | .error _ => []

/-- **A compilation makes an executable or leaves nothing.** The stages that it reports are decided by its result. If
what stands at the path has no C text, the compilation fails for this reason and starts nothing. Else it goes on to a
build, and its failures are those of the build, named as such. A C compiler is started once at most, on the C text and
with the flags, the scratch file and the output as arguments, while the scratch file is there; afterwards no scratch file
is left. The executable is the output, or there is none. -/
theorem compile_all_or_nothing (host : Host) (c : Compiler) (path : Bytes) :
    let job := c.compile host path
    let translated := (c.fileToC host path).result
    (Event.stages job.log = (if c.traced then stagesOver job.result else []) ∧ stagesOver job.result <+: Stage.all) ∧
    (∀ e, translated = .error e → Untranslated host path e ∧ job.result = .error e ∧ Event.invocations job.log = [] ∧
      (∀ error, e = .parse error → e.message = ascii "parse: " ++ error.message) ∧
      ∀ error, e = .range error → e.message = ascii "generate: " ++ error.message) ∧
    (∀ source, translated = .ok source → Translates host path source ∧ ∃ log result,
      c.toolchain.BuildEnds host source log result ∧ Event.invocations job.log = Event.invocations log ∧
      job.result = result.mapError .build ∧
      ∀ error, result = .error error → ∃ e, job.result = .error e ∧ e.message = ascii "compile: " ++ error.message) ∧
    (∀ before invocation after, job.log = before ++ .started invocation :: after →
      translated = .ok invocation.source ∧ invocation.command = c.toolchain.command ∧
      invocation.arguments = c.toolchain.flags ++ [host.scratch, ascii "-o", c.toolchain.output] ∧
      Event.invocations before = [] ∧ Event.invocations after = [] ∧ Event.scratchFiles [] before = [host.scratch]) ∧
    (∀ present, Event.scratchFiles present job.log = present) ∧
    job.executable = match job.result with
      | .ok _ => c.toolchain.output
      | .error _ => [] := by
  intro job translated
  have hreport := c.only_report
  rcases c.compile_cases host path with ⟨e, he, htext, hjob⟩ | ⟨source, log, result, hsource, htext, hends, hjob⟩
  · have hlog : job.log = c.report (stagesOver (.error e)) := congrArg Job.log hjob
    have hresult : job.result = .error e := congrArg Job.result hjob
    obtain ⟨hstarts, _, hfiles⟩ := hreport (stagesOver (.error e))
    rw [Job.executable, hlog, hresult]
    refine ⟨⟨c.stages_report _, stagesOver_prefix _⟩, ?_, ?_, ?_, hfiles, rfl⟩
    · intro e' he'
      obtain rfl : e = e' := Except.error.inj (htext.symm.trans he')
      exact ⟨he, rfl, hstarts, by rintro error rfl; rfl, by rintro error rfl; rfl⟩
    · intro source hs
      exact absurd (htext.symm.trans hs) (by simp)
    · intro before invocation after hsplit
      exact absurd hsplit (Event.not_started_of_invocations hstarts before after invocation)
  · have hlog : job.log = c.report [.lex, .parse, .lower, .generate] ++ log ++ c.report [.compile] :=
      congrArg Job.log hjob
    have hresult : job.result = result.mapError .build := congrArg Job.result hjob
    obtain ⟨hstarts, _, hfiles⟩ := hreport [.lex, .parse, .lower, .generate]
    obtain ⟨hstarts', _, hfiles'⟩ := hreport [.compile]
    obtain ⟨hstages, hclean⟩ := hends.scratchFiles_eq
    have hover : stagesOver job.result = Stage.all := by
      rw [hresult]
      cases result <;> rfl
    rw [hover]
    refine ⟨⟨?_, List.prefix_rfl⟩, ?_, ?_, ?_, ?_, ?_⟩
    · rw [hlog, Event.stages_append, Event.stages_append, hstages, c.stages_report, c.stages_report]
      cases c.traced <;> rfl
    · intro e he
      exact absurd (htext.symm.trans he) (by simp)
    · intro source' hs
      obtain rfl : source = source' := Except.ok.inj (htext.symm.trans hs)
      refine ⟨hsource, log, result, hends, ?_, hresult, ?_⟩
      · rw [hlog, Event.invocations_append, Event.invocations_append, hstarts, hstarts', List.append_nil,
          List.nil_append]
      · rintro error rfl
        exact ⟨.build error, hresult, rfl⟩
    · intro before invocation after hsplit
      obtain ⟨rfl, rfl, hafter⟩ := hends.eq_invocation hstarts hstarts' (hlog.symm.trans hsplit)
      refine ⟨htext, rfl, rfl, ?_, hafter, ?_⟩
      · rw [Event.invocations_append, hstarts]
        rfl
      · rw [Event.scratchFiles_append, hfiles]
        rfl
    · intro present
      rw [hlog, Event.scratchFiles_append, Event.scratchFiles_append, hfiles, hclean, hfiles']
    · rw [Job.executable, hresult]
      cases result with
      | error e => rfl
      | ok exe => exact hends.eq_output

/-- A C compiler that is started and fails, a path where nothing stands, and a scratch file that cannot be closed. -/
theorem compile_all_or_nothing_failing :
    let host : Host :=
      { entry := fun path => if path = ascii "m" then .ok (.file (ascii "f();")) else .error .missing
        named := fun name => some (ascii "/bin/" ++ name, fun _ => ⟨.status 1, [], ascii "no\n"⟩)
        located := fun _ => .error .missing
        scratch := ascii "a.c"
        elapsed := fun _ => [] }
    let full : Host := { host with writeFault := some (.close .noSpace) }
    let c : Compiler := { toolchain := ⟨ascii "cc", [ascii "-O3"], ascii "m.out", true⟩, traced := true }
    let start : Invocation := ⟨ascii "cc", [ascii "-O3", ascii "a.c", ascii "-o", ascii "m.out"], ascii "f();"⟩
    let front : List Event :=
      [.finished .lex, .finished .parse, .finished .lower, .finished .generate, .created (ascii "a.c")]
    let back : List Event := [.output [], .diagnostics (ascii "no\n"), .removed (ascii "a.c"), .finished .compile]
    (c.compile host (ascii "m")).log = front ++ .started start :: back ∧ Event.scratchFiles [] front = [ascii "a.c"] ∧
    (c.fileToC host (ascii "m")).result = .ok (ascii "f();") ∧
    (∃ log result, c.toolchain.BuildEnds host (ascii "f();") log result ∧
      (c.compile host (ascii "m")).result = result.mapError .build) ∧
    (c.compile host (ascii "m")).executable = [] ∧
    (c.fileToC host (ascii "n")).result = .error (.unopened (ascii "n") .missing) ∧
    Untranslated host (ascii "n") (.unopened (ascii "n") .missing) ∧
    Event.stages (c.compile host (ascii "n")).log = [] ∧
    (c.compile full (ascii "m")).log = front ++ [.removed (ascii "a.c"), .finished .compile] ∧
    (c.compile full (ascii "m")).result = .error (.build (.unwritten (ascii "a.c") (.close .noSpace))) ∧
    Event.scratchFiles [] (c.compile full (ascii "m")).log = [] := by
  intro host full c start front back
  obtain ⟨_, _, hbuild, hstart, _⟩ := compile_all_or_nothing host c (ascii "m")
  obtain ⟨_, hfail, _⟩ := compile_all_or_nothing host c (ascii "n")
  obtain ⟨_, _, _, _, hclean, _⟩ := compile_all_or_nothing full c (ascii "m")
  have hlog : (c.compile host (ascii "m")).log = front ++ .started start :: back := by decide +kernel
  have hn : (c.fileToC host (ascii "n")).result = .error (.unopened (ascii "n") .missing) := by decide +kernel
  obtain ⟨hsource, _, _, _, _, hfiles⟩ := hstart front start back hlog
  obtain ⟨_, log, result, hends, _, hresult, _⟩ := hbuild _ hsource
  exact ⟨hlog, hfiles, hsource, ⟨log, result, hends, hresult⟩, by decide +kernel, hn, (hfail _ hn).1, by decide +kernel,
    by decide +kernel, by decide +kernel, hclean []⟩

end CallLang
