import CallLang.Proofs.Tree.Extension

/-!
# Runs that go on

A parser that was stopped by an error goes on behind the tokens that it has read, in the middle of a statement or behind
a body. Each run is then as good as a first run over the tokens that are left, and each run reads one of them at least, so
all tokens are read some time.

- `Parser.Forward`: a reader takes tokens from the front and leaves the others as they are, also when it fails. Readers
  that are put together from such readers are such readers (`forward_bind`);
- `Parser.left_program`: so a run leaves a suffix of the tokens behind the first one;
- `Session.drop_position_run`: the position is that of the tokens that are left;
- `Session.run_eq_parse`: the place of the end is the only thing that a run knows of the tokens before, and what is left
  ends where all tokens end;
- `Session.after` is a parser after some runs, and `Session.le_position_after` says how far it is at least.
-/

namespace CallLang.Parser

variable {α β : Type}

/-! ## Readers go forward -/

/-- What a reader leaves, also when it fails, are the last ones of its tokens. -/
def Forward (p : Parser α) : Prop :=
  ∀ ending tokens, (p ending tokens).left <:+ tokens

theorem forward_pure (a : α) : Forward (pure a) := by
  intro ending tokens
  exact List.suffix_rfl

theorem forward_fail (place : Option Location) (reason : Reason) : Forward (fail place reason : Parser α) := by
  intro ending tokens
  exact List.suffix_rfl

theorem forward_bind {p : Parser α} {k : α → Parser β} (hp : Forward p) (hk : ∀ a, Forward (k a)) :
    Forward (p >>= k) := by
  intro ending tokens
  have h := hp ending tokens
  simp only [bind]
  cases hr : p ending tokens with
  | failed e rest =>
    rw [hr] at h
    exact h
  | done a rest =>
    rw [hr] at h
    exact (hk a ending rest).trans h

theorem forward_token (atEnd : Reason) : Forward (token atEnd) := by
  intro ending tokens
  cases tokens with
  | nil => exact List.suffix_rfl
  | cons t rest => exact List.suffix_cons t rest

theorem forward_expect (slot : Slot) : Forward (expect slot) := by
  apply forward_bind (forward_token _)
  intro t
  split
  · exact forward_pure t
  · exact forward_fail t.place (.mismatch slot t)

theorem forward_body : Forward body := by
  intro ending tokens
  cases h : splitBody 0 tokens with
  | none =>
    rw [body, h]
    exact List.nil_suffix
  | some split =>
    obtain ⟨inner, rest⟩ := split
    obtain ⟨close, _, rfl, _⟩ := splitBody_eq_some_iff.1 h
    rw [body, h]
    exact (List.suffix_cons close rest).trans (List.suffix_append inner _)

theorem forward_importing (start : Token) : Forward (importing start) := by
  apply forward_bind (forward_expect _)
  intro name
  apply forward_bind (forward_expect _)
  intro _
  apply forward_bind (forward_expect _)
  intro module
  apply forward_bind (forward_expect _)
  intro _
  exact forward_pure _

theorem forward_function (start : Token) : Forward (function start) := by
  unfold function
  split
  · exact forward_fail start.place (.unknownType start.value)
  · apply forward_bind (forward_expect _)
    intro _
    apply forward_bind (forward_expect _)
    intro name
    apply forward_bind (forward_expect _)
    intro _
    apply forward_bind (forward_expect _)
    intro _
    apply forward_bind (forward_expect _)
    intro _
    apply forward_bind forward_body
    intro tokens
    exact forward_pure _

theorem forward_noExtra (name : Bytes) : Forward (noExtra name) := by
  intro ending tokens
  cases tokens with
  | nil => exact List.suffix_rfl
  | cons t rest =>
    rw [noExtra]
    split <;> exact List.suffix_rfl

theorem forward_arguments (name : Bytes) : Forward (arguments name) := by
  apply forward_bind (forward_token _)
  intro t
  split
  · exact forward_pure _
  · split
    · apply forward_bind (forward_noExtra name)
      intro _
      apply forward_bind (forward_expect _)
      intro _
      exact forward_pure _
    · exact forward_fail t.place (.badArgument t)

theorem forward_call (start : Token) : Forward (call start) := by
  apply forward_bind (forward_expect _)
  intro _
  apply forward_bind (forward_arguments _)
  intro arguments
  apply forward_bind (forward_expect _)
  intro _
  exact forward_pure _

theorem forward_literalStatement (start : Token) : Forward (literalStatement start) := by
  intro ending tokens
  cases tokens with
  | nil => exact List.suffix_rfl
  | cons t rest =>
    rw [literalStatement]
    split
    · exact List.suffix_cons t rest
    · exact List.suffix_rfl

theorem forward_statement (start : Token) : Forward (statement start) := by
  unfold statement
  split
  · exact forward_importing start
  · exact forward_function start
  · exact forward_call start
  · exact forward_literalStatement start
  · exact forward_literalStatement start
  · exact forward_fail start.place (.unexpected start)

/-! ## Runs go forward -/

@[simp] theorem left_map (f : α → β) (o : Outcome α) : (o.map f).left = o.left := by
  cases o <;> rfl

/-- **A run takes the first token at least**, and what it leaves are the last ones of its tokens. -/
theorem left_program (ending : Option Location) (tokens : List Token) :
    (program ending tokens).left <:+ tokens.tail := by
  -- what a statement leaves is a suffix of the tail, and so is what the statements behind it leave
  fun_induction program ending tokens with
  | case1 => exact List.suffix_rfl
  | case2 ending start tokens e left hs =>
    have hleft := forward_statement start ending tokens
    rwa [hs] at hleft
  | case3 ending start tokens n left hs ih =>
    have hleft := forward_statement start ending tokens
    rw [hs] at hleft
    rw [left_map]
    exact ih.trans ((List.tail_suffix left).trans hleft)
  | case4 ending start tokens name type place body left hs e rest hb ihb =>
    have hleft := forward_statement start ending tokens
    rwa [hs] at hleft
  | case5 ending start tokens name type place body left hs nodes rest hb ihb ih =>
    have hleft := forward_statement start ending tokens
    rw [hs] at hleft
    rw [left_map]
    exact ih.trans ((List.tail_suffix left).trans hleft)

/-- Of tokens that were read before, a run knows no more than where they end. -/
theorem program_drop (tokens : List Token) (n : Nat) :
    program (lastPlace tokens) (tokens.drop n) = run (tokens.drop n) := by
  cases hd : tokens.drop n with
  | nil => rw [run, program, program]
  | cons t rest =>
    have hlast : lastPlace tokens = lastPlace (t :: rest) := by
      rw [← List.take_append_drop n tokens, hd]
      exact lastPlace_append _ (List.cons_ne_nil t rest)
    rw [run, hlast]

/-! ## One run of a parser -/

namespace Session

variable (s : Session)

/-- A run from a position on is a parse of the tokens there. -/
theorem run_eq_parse : s.run.1 = parse s.file (s.tokens.drop s.position) := by
  rw [run, parse, program_drop]

theorem position_run : s.run.2.position = s.tokens.length - (Parser.run (s.tokens.drop s.position)).left.length := by
  rw [run, program_drop]

/-- What a run leaves are the last ones of all tokens. -/
theorem left_suffix : (Parser.run (s.tokens.drop s.position)).left <:+ s.tokens :=
  (left_program _ _).trans ((List.tail_suffix _).trans (List.drop_suffix _ _))

/-- The next run starts with the tokens that this one leaves. -/
theorem drop_position_run : s.tokens.drop s.run.2.position = (Parser.run (s.tokens.drop s.position)).left := by
  rw [position_run]
  exact (List.suffix_iff_eq_drop.1 s.left_suffix).symm

theorem position_run_le : s.run.2.position ≤ s.tokens.length := by
  rw [position_run]
  exact Nat.sub_le _ _

theorem length_left_le :
    (Parser.run (s.tokens.drop s.position)).left.length ≤ s.tokens.length - s.position - 1 := by
  have hleft := (left_program (lastPlace (s.tokens.drop s.position)) (s.tokens.drop s.position)).length_le
  rwa [List.length_tail, List.length_drop] at hleft

/-- A run reads a token, if there is one left. -/
theorem lt_position_run (h : s.position < s.tokens.length) : s.position < s.run.2.position := by
  have hleft := s.length_left_le
  rw [position_run]
  omega

/-- A run does not go back. -/
theorem position_le_run (h : s.position ≤ s.tokens.length) : s.position ≤ s.run.2.position := by
  have hleft := s.length_left_le
  rw [position_run]
  omega

/-- At the end of the tokens a run finds nothing. -/
theorem run_of_end (h : s.position = s.tokens.length) : s.run.1 = .ok ⟨s.file, none⟩ := by
  rw [run_eq_parse, h, List.drop_length, parse, Parser.run, program]
  rfl

/-! ## Several runs -/

/-- The parser after `n` runs. -/
def after (s : Session) : Nat → Session
  | 0 => s
  | n + 1 => (s.after n).run.2

theorem tokens_after (n : Nat) : (s.after n).tokens = s.tokens := by
  induction n with
  | zero => rfl
  | succ n ih => exact ih

theorem file_after (n : Nat) : (s.after n).file = s.file := by
  induction n with
  | zero => rfl
  | succ n ih => exact ih

theorem after_run (n : Nat) : s.run.2.after n = s.after (n + 1) := by
  induction n with
  | zero => rfl
  | succ n ih =>
    rw [after, ih]
    rfl

theorem runs_eq (n : Nat) : s.runs n = (List.range n).map fun k => (s.after k).run.1 := by
  induction n generalizing s with
  | zero => rfl
  | succ n ih =>
    rw [runs, ih, List.range_succ_eq_map, List.map_cons, List.map_map]
    simp only [after_run]
    rfl

/-- A parser stays within its tokens. -/
theorem position_after_le (h : s.position ≤ s.tokens.length) (n : Nat) : (s.after n).position ≤ s.tokens.length := by
  cases n with
  | zero => exact h
  | succ n =>
    have hle := (s.after n).position_run_le
    rwa [tokens_after] at hle

/-- After `n` runs, `n` tokens are read, or all of them. -/
theorem le_position_after (h : s.position ≤ s.tokens.length) (n : Nat) :
    min n s.tokens.length ≤ (s.after n).position := by
  induction n with
  | zero => simp
  | succ n ih =>
    have hstep := (s.after n).lt_position_run
    have hback := (s.after n).position_le_run (by rw [tokens_after]; exact s.position_after_le h n)
    rw [tokens_after] at hstep
    show min (n + 1) s.tokens.length ≤ (s.after n).run.2.position
    by_cases hend : (s.after n).position < s.tokens.length
    · have := hstep hend
      omega
    · omega

end Session

/-- **The runs of a parser go on cleanly and come to an end.** A parser stays within its tokens and never goes back. A
run gives what a parse of the tokens behind the position gives, the same statements or the same error at the same place,
and the next run starts with the tokens that it leaves. It reads a token at least, if there is one left, so after as many
runs as there are tokens all of them are read, and then every run succeeds and has no statements. -/
theorem runs_resume (file : Bytes) (tokens : List Token) (n : Nat) :
    let s := Session.after ⟨file, tokens, 0⟩ n
    (s.position ≤ tokens.length ∧ s.position ≤ s.run.2.position ∧ s.run.2.position ≤ tokens.length) ∧
    (s.position < tokens.length → s.position < s.run.2.position) ∧
    s.run.1 = parse file (tokens.drop s.position) ∧
    tokens.drop s.run.2.position = (run (tokens.drop s.position)).left ∧
    (tokens.length ≤ n → s.position = tokens.length ∧ s.run.1 = .ok ⟨file, none⟩) ∧
    runs file tokens n = (List.range n).map fun k =>
      parse file (tokens.drop (Session.after ⟨file, tokens, 0⟩ k).position) := by
  intro s
  have htokens (k : Nat) : (Session.after ⟨file, tokens, 0⟩ k).tokens = tokens := Session.tokens_after _ k
  have hfile (k : Nat) : (Session.after ⟨file, tokens, 0⟩ k).file = file := Session.file_after _ k
  have hresult (k : Nat) : (Session.after ⟨file, tokens, 0⟩ k).run.1 =
      parse file (tokens.drop (Session.after ⟨file, tokens, 0⟩ k).position) := by
    rw [Session.run_eq_parse, htokens, hfile]
  have hle : s.position ≤ tokens.length := Session.position_after_le ⟨file, tokens, 0⟩ (Nat.zero_le _) n
  refine ⟨⟨hle, ?_, ?_⟩, ?_, hresult n, ?_, ?_, ?_⟩
  · exact s.position_le_run (by rwa [htokens])
  · have hrun := s.position_run_le
    rwa [htokens] at hrun
  · intro hlt
    exact s.lt_position_run (by rwa [htokens])
  · have hdrop := s.drop_position_run
    rwa [htokens] at hdrop
  · intro hn
    have hmin : min n tokens.length ≤ s.position := Session.le_position_after ⟨file, tokens, 0⟩ (Nat.zero_le _) n
    have hend : s.position = tokens.length := by omega
    refine ⟨hend, ?_⟩
    have hnil := s.run_of_end (by rwa [htokens])
    rwa [hfile] at hnil
  · rw [runs, Session.runs_eq]
    exact List.map_congr_left fun k _ => hresult k

/-- The tokens of `1 2; f(`. The first run stops behind the `1`, the second one reads on and meets the end, and there is
nothing left for the third one. -/
theorem runs_resume_twice :
    let word (kind : Kind) (value : String) (column : Nat) : Token :=
      ⟨kind, ascii value, some ⟨[], 1, column, column - 1⟩, 1⟩
    let tokens := [word .number "1" 1, word .number "2" 3, word .semicolon ";" 4, word .identifier "f" 6,
      word .openParen "(" 7]
    let first := Session.after ⟨[], tokens, 0⟩ 1
    let last := Session.after ⟨[], tokens, 0⟩ 5
    first.position = 1 ∧ first.position < first.run.2.position ∧ first.run.1 = parse [] (tokens.drop 1) ∧
    (first.run.1.map fun _ => ()) = .error ⟨some ⟨[], 1, 7, 6⟩, .endInArguments⟩ ∧
    last.position = 5 ∧ last.run.1 = .ok ⟨[], none⟩ := by
  intro word tokens first last
  have hposition : first.position = 1 := by decide +kernel
  obtain ⟨_, hstep, hresult, _⟩ := runs_resume [] tokens 1
  obtain ⟨_, _, _, _, hend, _⟩ := runs_resume [] tokens 5
  refine ⟨hposition, hstep ?_, ?_, by decide +kernel, hend (by decide)⟩
  · show first.position < 5
    rw [hposition]
    decide
  · rw [hposition] at hresult
    exact hresult

end CallLang.Parser
