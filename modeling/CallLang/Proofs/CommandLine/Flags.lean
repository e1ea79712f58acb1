import CallLang.CommandLine.Options
import Mathlib.Data.List.Induction
import Mathlib.Data.List.TakeWhile

/-!
# The grammar of arguments

A list of arguments is some flags and what ends them. `Flags` says how flags are written and `Ends` what can end them:
the first argument that is none, the end of the list, a wrong argument. Reading a list of arguments follows this grammar
(`read_of_reads`, `exists_reads`), and of the values that a name has among the flags it takes the last
(`foldl_set_eq`). So the options can be said without reading: `Options.ofFlags`.
-/

namespace CallLang

open Options (dash equals)

/-- A flag with its value, which for a switch without one is the text for on. -/
structure Flag where
  name : Bytes
  value : Bytes
deriving DecidableEq, Repr

namespace Flag

/-- The flags that need no value. -/
def switches : List Bytes :=
  ["emit-tokens", "emit-ast", "emit-ic", "emit-c", "trace", "version"].map ascii

/-- The flags that need a value. -/
def settings : List Bytes :=
  ["o", "cc"].map ascii

/-- The names that ask for the usage. -/
def helps : List Bytes :=
  ["help", "h"].map ascii

/-- The texts that a switch takes as its value. -/
def truths : List Bytes :=
  Options.onTexts ++ Options.offTexts

/-- The value of the last flag with a name, or `default` if there is none. -/
def lastValue (name : Bytes) (flags : List Flag) (default : Bytes) : Bytes :=
  ((flags.filter (·.name = name)).map value).getLastD default

/-- Whether a switch is on after some flags: it is off until it is turned on, and the last value counts. -/
def isOn (name : Bytes) (flags : List Flag) : Bool :=
  Options.onTexts.contains (lastValue name flags (ascii "false"))

end Flag

namespace Arguments

/-! ## How arguments are written -/

/-- A name, and a value behind an equals sign if there is one. -/
def withValue (name : Bytes) : Option Bytes → Bytes
  | none => name
  | some value => name ++ equals :: value

theorem withValue_cons (b : UInt8) (name : Bytes) (value : Option Bytes) :
    withValue (b :: name) value = b :: withValue name value := by
  cases value <;> rfl

/-- An argument that is a flag: a dash or two, a name, and perhaps an equals sign and a value. -/
def Spells (argument name : Bytes) (value : Option Bytes) : Prop :=
  (argument = dash :: withValue name value ∨ argument = dash :: dash :: withValue name value) ∧
    name ≠ [] ∧ name.head? ≠ some dash ∧ equals ∉ name

/-- An argument that is no flag: no dash is before it, or it is a dash alone. -/
def IsPlain (argument : Bytes) : Prop :=
  argument.head? ≠ some dash ∨ argument = [dash]

/-- An argument with dashes and no name behind them: a third dash or an equals sign is there. -/
def IsMalformed (argument : Bytes) : Prop :=
  ∃ rest, argument = dash :: equals :: rest ∨ argument = dash :: dash :: dash :: rest ∨
    argument = dash :: dash :: equals :: rest

/-- Arguments that begin with some flags, and the arguments behind these. -/
inductive Flags : List Bytes → List Flag → List Bytes → Prop where
  | nil (arguments : List Bytes) : Flags arguments [] arguments
  | switch {argument name : Bytes} {value : Option Bytes} {arguments rest : List Bytes} {flags : List Flag}
      (hs : Spells argument name value) (hn : name ∈ Flag.switches) (hv : value.getD (ascii "true") ∈ Flag.truths)
      (h : Flags arguments flags rest) :
      Flags (argument :: arguments) (⟨name, value.getD (ascii "true")⟩ :: flags) rest
  | joined {argument name value : Bytes} {arguments rest : List Bytes} {flags : List Flag}
      (hs : Spells argument name (some value)) (hn : name ∈ Flag.settings) (h : Flags arguments flags rest) :
      Flags (argument :: arguments) (⟨name, value⟩ :: flags) rest
  | apart {argument name value : Bytes} {arguments rest : List Bytes} {flags : List Flag}
      (hs : Spells argument name none) (hn : name ∈ Flag.settings) (h : Flags arguments flags rest) :
      Flags (argument :: value :: arguments) (⟨name, value⟩ :: flags) rest

/-- What flags end in. -/
inductive Ending where
  /-- The arguments that are left. -/
  | left (arguments : List Bytes)
  | help
  | wrong (error : OptionError)

/-- Arguments that end the flags, and what the flags end in there. -/
inductive Ends : List Bytes → Ending → Prop where
  | nil : Ends [] (.left [])
  | plain {argument : Bytes} {rest : List Bytes} (h : IsPlain argument) :
      Ends (argument :: rest) (.left (argument :: rest))
  | dashes {rest : List Bytes} : Ends ([dash, dash] :: rest) (.left rest)
  | help {argument name : Bytes} {value : Option Bytes} {rest : List Bytes} (hs : Spells argument name value)
      (hn : name ∈ Flag.helps) : Ends (argument :: rest) .help
  | badForm {argument : Bytes} {rest : List Bytes} (h : IsMalformed argument) :
      Ends (argument :: rest) (.wrong (.badForm argument))
  | undefined {argument name : Bytes} {value : Option Bytes} {rest : List Bytes} (hs : Spells argument name value)
      (hn : name ∉ Flag.switches ++ Flag.settings ++ Flag.helps) : Ends (argument :: rest) (.wrong (.undefined name))
  | badSwitch {argument name value : Bytes} {rest : List Bytes} (hs : Spells argument name (some value))
      (hn : name ∈ Flag.switches) (hv : value ∉ Flag.truths) : Ends (argument :: rest) (.wrong (.badSwitch value name))
  | needsArgument {argument name : Bytes} (hs : Spells argument name none) (hn : name ∈ Flag.settings) :
      Ends [argument] (.wrong (.needsArgument name))

/-- Arguments that are some flags and what these end in. -/
def Reads (arguments : List Bytes) (flags : List Flag) (ending : Ending) : Prop :=
  ∃ rest, Flags arguments flags rest ∧ Ends rest ending

end Arguments

namespace Options

open Arguments

/-! ## The forms of arguments -/

theorem splitValue_eq_iff {text name : Bytes} {value : Option Bytes} :
    splitValue text = (name, value) ↔ text = withValue name value ∧ equals ∉ name := by
  have hsplit := List.takeWhile_append_dropWhile (p := (· != equals)) (l := text)
  have hfront : equals ∉ text.takeWhile (· != equals) := fun h => by simpa using List.mem_takeWhile_imp h
  constructor
  · intro h
    unfold splitValue at h
    split at h
    · next hd =>
      cases h
      rw [hd, List.append_nil] at hsplit
      rw [hsplit] at hfront
      exact ⟨rfl, hfront⟩
    · next b rest hd =>
      cases h
      have hb : b = equals := by simpa [hd] using List.head_dropWhile_not (· != equals) (l := text) (by simp [hd])
      rw [hd, hb] at hsplit
      exact ⟨hsplit.symm, hfront⟩
  · rintro ⟨rfl, hname⟩
    have hall : ∀ b ∈ name, (b != equals) = true := by
      intro b hb
      rw [bne_iff_ne]
      rintro rfl
      exact hname hb
    unfold splitValue
    cases value with
    | none =>
      rw [withValue, List.dropWhile_eq_nil_iff.2 hall]
    | some value =>
      rw [withValue, List.dropWhile_append_of_pos hall, List.takeWhile_append_of_pos hall]
      simp

/-- Behind the dashes of a flag, there is a name, and a value if it has one. -/
theorem formOfName_eq_option_iff {text name : Bytes} {value : Option Bytes} :
    formOfName text = .option name value ↔
      text = withValue name value ∧ name ≠ [] ∧ name.head? ≠ some dash ∧ equals ∉ name := by
  constructor
  · intro h
    unfold formOfName at h
    split at h
    · cases h
    · next b rest =>
      split at h
      · cases h
      · next hb =>
        obtain ⟨hdash, hequals⟩ := not_or.1 hb
        obtain ⟨hname, hvalue⟩ := Form.option.inj h
        obtain ⟨ht, hno⟩ := splitValue_eq_iff.1 (Prod.ext hname hvalue)
        cases name with
        | nil =>
          cases value with
          | none => cases ht
          | some value => exact absurd (List.cons.inj ht).1 hequals
        | cons a name =>
          rw [withValue_cons] at ht
          obtain ⟨rfl, rfl⟩ := List.cons.inj ht
          exact ⟨(withValue_cons _ _ _).symm, by simp, by simpa using hdash, hno⟩
  · rintro ⟨rfl, hne, hhead, hno⟩
    obtain ⟨b, name, rfl⟩ := List.exists_cons_of_ne_nil hne
    have hb : ¬ (b = dash ∨ b = equals) := by
      rintro (rfl | rfl)
      · exact hhead rfl
      · exact hno List.mem_cons_self
    have hsplit : splitValue (withValue (b :: name) value) = (b :: name, value) := splitValue_eq_iff.2 ⟨rfl, hno⟩
    rw [withValue_cons] at hsplit ⊢
    rw [formOfName, if_neg hb, hsplit]

theorem formOfName_cons (b : UInt8) (rest : Bytes) :
    (formOfName (b :: rest) = .malformed ↔ b = dash ∨ b = equals) ∧ formOfName (b :: rest) ≠ .plain ∧
      formOfName (b :: rest) ≠ .ending := by
  rw [formOfName]
  split <;> simp_all

section Forms

variable {argument name : Bytes} {value : Option Bytes}

theorem form_dash (b : UInt8) (rest : Bytes) (hb : b ≠ dash) : form (dash :: b :: rest) = formOfName (b :: rest) := by
  simp [form, hb]

theorem form_dashes (b : UInt8) (rest : Bytes) : form (dash :: dash :: b :: rest) = formOfName (b :: rest) := by
  simp [form]

/-- An argument is plain, or it is two dashes, or it has one dash or two before something else. -/
theorem argument_cases (argument : Bytes) :
    IsPlain argument ∨ argument = [dash, dash] ∨ ∃ b rest, form argument = formOfName (b :: rest) ∧
      ((b ≠ dash ∧ argument = dash :: b :: rest) ∨ argument = dash :: dash :: b :: rest) := by
  rcases argument with _ | ⟨a, _ | ⟨b, rest⟩⟩
  · exact .inl (.inl (by simp))
  · by_cases ha : a = dash
    · exact .inl (.inr (by rw [ha]))
    · exact .inl (.inl (by simpa using ha))
  · by_cases ha : a = dash
    · subst ha
      by_cases hb : b = dash
      · subst hb
        cases rest with
        | nil => exact .inr (.inl rfl)
        | cons b rest => exact .inr (.inr ⟨b, rest, form_dashes b rest, .inr rfl⟩)
      · exact .inr (.inr ⟨b, rest, form_dash b rest hb, .inl ⟨hb, rfl⟩⟩)
    · exact .inl (.inl (by simpa using ha))

theorem form_of_plain (h : IsPlain argument) : form argument = .plain := by
  rcases h with h | rfl
  · unfold form
    split
    · rfl
    · rfl
    · next a b rest => rw [if_pos (by simpa using h)]
  · rfl

theorem form_of_spells (h : Spells argument name value) : form argument = .option name value := by
  obtain ⟨hargument, hname⟩ := h
  have hform : formOfName (withValue name value) = .option name value := formOfName_eq_option_iff.2 ⟨rfl, hname⟩
  obtain ⟨b, name, rfl⟩ := List.exists_cons_of_ne_nil hname.1
  rw [withValue_cons] at hargument hform
  rcases hargument with rfl | rfl
  · rw [form_dash b _ (by simpa using hname.2.1), hform]
  · rw [form_dashes, hform]

theorem form_of_malformed (h : IsMalformed argument) : form argument = .malformed := by
  obtain ⟨rest, rfl | rfl | rfl⟩ := h
  · rw [form_dash _ _ (by decide)]
    exact (formOfName_cons _ _).1.2 (.inr rfl)
  · rw [form_dashes]
    exact (formOfName_cons _ _).1.2 (.inl rfl)
  · rw [form_dashes]
    exact (formOfName_cons _ _).1.2 (.inr rfl)

/-- The form of an argument says how it is written. -/
theorem form_spec (argument : Bytes) :
    match form argument with
    | .plain => IsPlain argument
    | .ending => argument = [dash, dash]
    | .malformed => IsMalformed argument
    | .option name value => Spells argument name value := by
  rcases argument_cases argument with h | rfl | ⟨b, rest, hform, hargument⟩
  · rw [form_of_plain h]
    exact h
  · rfl
  · obtain ⟨hbad, hplain, hending⟩ := formOfName_cons b rest
    rw [hform]
    cases hf : formOfName (b :: rest) with
    | plain => exact absurd hf hplain
    | ending => exact absurd hf hending
    | malformed =>
      rcases hbad.1 hf with rfl | rfl
      · exact ⟨rest, .inr (.inl (hargument.resolve_left fun h => h.1 rfl))⟩
      · exact ⟨rest, hargument.imp And.right .inr⟩
    | option name value =>
      obtain ⟨ht, hname⟩ := formOfName_eq_option_iff.1 hf
      rw [ht] at hargument
      exact ⟨hargument.imp And.right id, hname⟩

theorem spells_of_form (h : form argument = .option name value) : Spells argument name value := by
  have hspec := form_spec argument
  rwa [h] at hspec

end Forms

/-! ## Single flags -/

/-- The options after one more flag. -/
def set (o : Options) (f : Flag) : Options :=
  match sort? f.name with
  | some (.switch set) => set o (onTexts.contains f.value)
  | some (.setting set) => set o f.value
  | none => o

/-- The options that some flags stand for. -/
def ofFlags (flags : List Flag) : Options where
  command := Flag.lastValue (ascii "cc") flags Toolchain.defaultCommand
  output := Flag.lastValue (ascii "o") flags Toolchain.defaultOutput
  emitTokens := Flag.isOn (ascii "emit-tokens") flags
  emitTree := Flag.isOn (ascii "emit-ast") flags
  emitProgram := Flag.isOn (ascii "emit-ic") flags
  emitC := Flag.isOn (ascii "emit-c") flags
  trace := Flag.isOn (ascii "trace") flags
  version := Flag.isOn (ascii "version") flags

theorem exists_switch {name : Bytes} (h : name ∈ Flag.switches) : ∃ set, sort? name = some (.switch set) := by
  simp only [Flag.switches, List.map_cons, List.map_nil, List.mem_cons, List.not_mem_nil, or_false] at h
  rcases h with rfl | rfl | rfl | rfl | rfl | rfl <;> exact ⟨_, rfl⟩

theorem exists_setting {name : Bytes} (h : name ∈ Flag.settings) : ∃ set, sort? name = some (.setting set) := by
  simp only [Flag.settings, List.map_cons, List.map_nil, List.mem_cons, List.not_mem_nil, or_false] at h
  rcases h with rfl | rfl <;> exact ⟨_, rfl⟩

/-- The sorts of flags are known by their names. -/
theorem sort_spec (name : Bytes) :
    match sort? name with
    | some (.switch _) => name ∈ Flag.switches
    | some (.setting _) => name ∈ Flag.settings
    | none => name ∉ Flag.switches ++ Flag.settings := by
  cases hs : sort? name with
  | none =>
    intro hn
    rcases List.mem_append.1 hn with hn | hn
    · obtain ⟨set, h⟩ := exists_switch hn
      rw [hs] at h
      cases h
    · obtain ⟨set, h⟩ := exists_setting hn
      rw [hs] at h
      cases h
  | some sort =>
    unfold sort? at hs
    repeat' split at hs
    all_goals cases hs
    all_goals
      subst_vars
      decide

theorem mem_switches {name : Bytes} {set : Options → Bool → Options} (h : sort? name = some (.switch set)) :
    name ∈ Flag.switches := by
  have hspec := sort_spec name
  rwa [h] at hspec

theorem mem_settings {name : Bytes} {set : Options → Bytes → Options} (h : sort? name = some (.setting set)) :
    name ∈ Flag.settings := by
  have hspec := sort_spec name
  rwa [h] at hspec

theorem sort_eq_none_iff {name : Bytes} : sort? name = none ↔ name ∉ Flag.switches ++ Flag.settings := by
  constructor
  · intro h
    have hspec := sort_spec name
    rwa [h] at hspec
  · intro hn
    cases hs : sort? name with
    | none => rfl
    | some sort =>
      cases sort with
      | switch set => exact absurd (List.mem_append_left _ (mem_switches hs)) hn
      | setting set => exact absurd (List.mem_append_right _ (mem_settings hs)) hn

theorem switchValue_of_mem {text : Bytes} (h : text ∈ Flag.truths) :
    switchValue? text = some (onTexts.contains text) := by
  unfold switchValue?
  by_cases hon : text ∈ onTexts
  · simp [hon]
  · have hoff := (List.mem_append.1 h).resolve_left hon
    simp [hon, hoff]

theorem switchValue_of_not_mem {text : Bytes} (h : text ∉ Flag.truths) : switchValue? text = none := by
  obtain ⟨hon, hoff⟩ := not_or.1 (mt List.mem_append.2 h)
  simp [switchValue?, hon, hoff]

/-! ## Reading follows the grammar -/

/-- Flags are read one after the other. -/
theorem read_of_flags {arguments rest : List Bytes} {flags : List Flag} (h : Flags arguments flags rest) (o : Options) :
    read o arguments = read (flags.foldl set o) rest := by
  induction h generalizing o with
  | nil => rfl
  | @switch argument name value arguments rest flags hs hn hv h ih =>
    obtain ⟨set', hset⟩ := exists_switch hn
    have hone : o.set ⟨name, value.getD (ascii "true")⟩ = set' o (onTexts.contains (value.getD (ascii "true"))) := by
      simp only [set, hset]
    rw [read, form_of_spells hs, List.foldl_cons, ← ih, hone]
    cases value with
    | none => simp only [hset]; rfl
    | some text =>
      rw [Option.getD_some] at hv
      simp only [hset, switchValue_of_mem hv, Option.getD_some]
  | @joined argument name value arguments rest flags hs hn h ih =>
    obtain ⟨set', hset⟩ := exists_setting hn
    rw [read, form_of_spells hs, List.foldl_cons, ← ih]
    simp only [set, hset]
  | @apart argument name value arguments rest flags hs hn h ih =>
    obtain ⟨set', hset⟩ := exists_setting hn
    rw [read, form_of_spells hs, List.foldl_cons, ← ih]
    simp only [set, hset]

end Options

/-- What an ending makes of the options before it. -/
def Arguments.Ending.request (o : Options) : Ending → Request
  | .left arguments => .given o arguments
  | .help => .help
  | .wrong e => .wrong e

namespace Options

open Arguments

theorem isHelp_iff {name : Bytes} : isHelp name = true ↔ name ∈ Flag.helps := by
  simp [isHelp, Flag.helps]

/-- What ends the flags is read as such. -/
theorem read_of_ends {rest : List Bytes} {ending : Ending} (h : Ends rest ending) (o : Options) :
    read o rest = ending.request o := by
  cases h with
  | nil => rfl
  | plain h => rw [read, form_of_plain h]; rfl
  | dashes => rfl
  | @help argument name value rest hs hn =>
    have hn' : name ∉ Flag.switches ++ Flag.settings := by
      simp only [Flag.helps, List.map_cons, List.map_nil, List.mem_cons, List.not_mem_nil, or_false] at hn
      rcases hn with rfl | rfl <;> decide
    simp only [read, form_of_spells hs, sort_eq_none_iff.2 hn', isHelp_iff.2 hn, if_true]
    rfl
  | badForm h => rw [read, form_of_malformed h]; rfl
  | @undefined argument name value rest hs hn =>
    obtain ⟨hn', hh⟩ := not_or.1 (mt List.mem_append.2 hn)
    have hnot : ¬ isHelp name = true := mt isHelp_iff.1 hh
    simp only [read, form_of_spells hs, sort_eq_none_iff.2 hn', if_neg hnot]
    rfl
  | badSwitch hs hn hv =>
    obtain ⟨set', hset⟩ := exists_switch hn
    simp only [read, form_of_spells hs, hset, switchValue_of_not_mem hv]
    rfl
  | needsArgument hs hn =>
    obtain ⟨set', hset⟩ := exists_setting hn
    simp only [read, form_of_spells hs, hset]
    rfl

/-- Every list of arguments is some flags and what these end in. -/
theorem exists_reads (arguments : List Bytes) : ∃ flags ending, Reads arguments flags ending := by
  -- what ends the flags has none before it
  have stop {arguments : List Bytes} {ending : Ending} (h : Ends arguments ending) :
      ∃ flags ending, Reads arguments flags ending := ⟨[], ending, arguments, .nil arguments, h⟩
  fun_induction read {} arguments with
  | case1 => exact stop .nil
  | case2 o argument rest hf =>
    have hspec := form_spec argument
    rw [hf] at hspec
    exact stop (.plain hspec)
  | case3 o argument rest hf =>
    have hspec := form_spec argument
    rw [hf] at hspec
    subst hspec
    exact stop .dashes
  | case4 o argument rest hf =>
    have hspec := form_spec argument
    rw [hf] at hspec
    exact stop (.badForm hspec)
  | case5 o argument rest name value hf hs hh => exact stop (.help (spells_of_form hf) (isHelp_iff.1 hh))
  | case6 o argument rest name value hf hs hh =>
    refine stop (.undefined (spells_of_form hf) ?_)
    intro hn
    rcases List.mem_append.1 hn with hn | hn
    · exact sort_eq_none_iff.1 hs hn
    · exact hh (isHelp_iff.2 hn)
  | case7 o argument rest name set hs hf ih =>
    obtain ⟨flags, ending, left, hflags, hends⟩ := ih
    exact ⟨_, ending, left, .switch (spells_of_form hf) (mem_switches hs) (by decide) hflags, hends⟩
  | case8 o argument rest name set hs text on ho hf ih =>
    obtain ⟨flags, ending, left, hflags, hends⟩ := ih
    have htext : text ∈ Flag.truths := by
      by_contra hn
      rw [switchValue_of_not_mem hn] at ho
      cases ho
    exact ⟨_, ending, left, .switch (spells_of_form hf) (mem_switches hs) htext hflags, hends⟩
  | case9 o argument rest name set hs text ho hf =>
    refine stop (.badSwitch (spells_of_form hf) (mem_switches hs) ?_)
    intro htext
    rw [switchValue_of_mem htext] at ho
    cases ho
  | case10 o argument name set hs text rest hf ih =>
    obtain ⟨flags, ending, left, hflags, hends⟩ := ih
    exact ⟨_, ending, left, .joined (spells_of_form hf) (mem_settings hs) hflags, hends⟩
  | case11 o argument name set hs text rest hf ih =>
    obtain ⟨flags, ending, left, hflags, hends⟩ := ih
    exact ⟨_, ending, left, .apart (spells_of_form hf) (mem_settings hs) hflags, hends⟩
  | case12 o argument name set hs hf => exact stop (.needsArgument (spells_of_form hf) (mem_settings hs))

/-! ## The last value counts -/

theorem lastValue_concat (name : Bytes) (flags : List Flag) (f : Flag) (default : Bytes) :
    Flag.lastValue name (flags ++ [f]) default =
      if f.name = name then f.value else Flag.lastValue name flags default := by
  unfold Flag.lastValue
  by_cases h : f.name = name <;> simp [h]

/-- One more flag changes the option that it names and no other. -/
theorem ofFlags_concat {f : Flag} (hn : f.name ∈ Flag.switches ++ Flag.settings) (flags : List Flag) :
    ofFlags (flags ++ [f]) = (ofFlags flags).set f := by
  obtain ⟨name, value⟩ := f
  simp only [Flag.switches, Flag.settings, List.map_cons, List.map_nil, List.cons_append, List.nil_append,
    List.mem_cons, List.not_mem_nil, or_false] at hn
  simp only [ofFlags, Flag.isOn, lastValue_concat]
  rcases hn with rfl | rfl | rfl | rfl | rfl | rfl | rfl | rfl <;> rfl

/-- Flags that are set one after the other are the options that they stand for. -/
theorem foldl_set_eq {flags : List Flag} (h : ∀ f ∈ flags, f.name ∈ Flag.switches ++ Flag.settings) :
    flags.foldl set {} = ofFlags flags := by
  induction flags using List.reverseRecOn with
  | nil => rfl
  | append_singleton flags f ih =>
    obtain ⟨hflags, hf⟩ := List.forall_mem_append.1 h
    rw [List.foldl_append, ih hflags, ofFlags_concat (hf f List.mem_cons_self)]
    rfl

theorem name_of_flags {arguments rest : List Bytes} {flags : List Flag} (h : Flags arguments flags rest) :
    ∀ f ∈ flags, f.name ∈ Flag.switches ++ Flag.settings := by
  induction h with
  | nil => simp
  | switch _ hn _ _ ih => exact List.forall_mem_cons.2 ⟨List.mem_append_left _ hn, ih⟩
  | joined _ hn _ ih => exact List.forall_mem_cons.2 ⟨List.mem_append_right _ hn, ih⟩
  | apart _ hn _ ih => exact List.forall_mem_cons.2 ⟨List.mem_append_right _ hn, ih⟩

/-- Arguments are read as what their flags stand for, up to what these end in. -/
theorem read_of_reads {arguments : List Bytes} {flags : List Flag} {ending : Ending}
    (h : Reads arguments flags ending) : read {} arguments = ending.request (ofFlags flags) := by
  obtain ⟨rest, hflags, hends⟩ := h
  rw [read_of_flags hflags, foldl_set_eq (name_of_flags hflags), read_of_ends hends]

end Options

end CallLang
