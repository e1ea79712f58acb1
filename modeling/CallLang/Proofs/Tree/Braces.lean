import CallLang.Tree.Parser

/-!
# Matching braces

A list of tokens is balanced when it has as many opening as closing braces and no beginning of it has more closing ones.
`splitBody` walks with a counter of the braces that are open. With `depth` of them open it stops at the first brace that
closes one more than the tokens before it have opened: these tokens are `Closing depth`.

- `splitBody_eq_some_iff`: the tokens are split at the brace that has just these tokens before it;
- `Balanced.append`, `Balanced.block`: balanced lists are closed under concatenation and under enclosing braces;
- `ClosedBy.unique`: there is only one matching brace, so `body_ends_at_matching_brace` says what a parser reads.
-/

namespace CallLang.Parser

/-- The number of opening braces. -/
def opens (tokens : List Token) : Nat :=
  tokens.countP (·.kind = .openBrace)

/-- The number of closing braces. -/
def closes (tokens : List Token) : Nat :=
  tokens.countP (·.kind = .closeBrace)

@[simp] theorem opens_append (a b : List Token) : opens (a ++ b) = opens a + opens b :=
  List.countP_append

@[simp] theorem closes_append (a b : List Token) : closes (a ++ b) = closes a + closes b :=
  List.countP_append

theorem opens_cons (t : Token) (tokens : List Token) :
    opens (t :: tokens) = opens tokens + if t.kind = .openBrace then 1 else 0 := by
  simp [opens, List.countP_cons]

theorem closes_cons (t : Token) (tokens : List Token) :
    closes (t :: tokens) = closes tokens + if t.kind = .closeBrace then 1 else 0 := by
  simp [closes, List.countP_cons]

/-- Tokens that close `depth` braces more than they open, and nowhere on the way more than that. -/
structure Closing (depth : Nat) (tokens : List Token) : Prop where
  level : closes tokens = opens tokens + depth
  within : ∀ front, front <+: tokens → closes front ≤ opens front + depth

/-- As many opening as closing braces, and no beginning with more closing ones. -/
def Balanced (tokens : List Token) : Prop :=
  Closing 0 tokens

/-! ## One token more -/

theorem closing_nil {depth : Nat} : Closing depth [] ↔ depth = 0 := by
  constructor
  · intro h
    have := h.level
    simp only [closes, opens, List.countP_nil] at this
    omega
  · rintro rfl
    exact ⟨rfl, fun front hf => by rw [List.prefix_nil.1 hf]; exact Nat.le_refl _⟩

/-- A token in front moves the depth: what is true of the rest at the new depth is true of the whole. -/
theorem closing_cons {depth inner : Nat} {t : Token} {tokens : List Token}
    (hd : depth + (if t.kind = .openBrace then 1 else 0) = inner + if t.kind = .closeBrace then 1 else 0) :
    Closing depth (t :: tokens) ↔ Closing inner tokens := by
  constructor
  · intro h
    refine ⟨?_, ?_⟩
    · have := h.level
      rw [opens_cons, closes_cons] at this
      omega
    · intro front hf
      have := h.within (t :: front) (List.cons_prefix_cons.2 ⟨rfl, hf⟩)
      rw [opens_cons, closes_cons] at this
      omega
  · intro h
    refine ⟨?_, ?_⟩
    · have := h.level
      rw [opens_cons, closes_cons]
      omega
    · intro front hf
      rcases List.prefix_cons_iff.1 hf with rfl | ⟨later, rfl, hl⟩
      · exact Nat.zero_le _
      · have := h.within later hl
        rw [opens_cons, closes_cons]
        omega

theorem closing_cons_open {depth : Nat} {t : Token} {tokens : List Token} (ht : t.kind = .openBrace) :
    Closing depth (t :: tokens) ↔ Closing (depth + 1) tokens :=
  closing_cons (by simp [ht])

theorem closing_cons_close {depth : Nat} {t : Token} {tokens : List Token} (ht : t.kind = .closeBrace) :
    Closing (depth + 1) (t :: tokens) ↔ Closing depth tokens :=
  closing_cons (by simp [ht])

theorem closing_cons_other {depth : Nat} {t : Token} {tokens : List Token} (h₁ : t.kind ≠ .openBrace)
    (h₂ : t.kind ≠ .closeBrace) : Closing depth (t :: tokens) ↔ Closing depth tokens :=
  closing_cons (by simp [h₁, h₂])

/-- Without an open brace there is none to close. -/
theorem not_closing_zero_cons {t : Token} {tokens : List Token} (ht : t.kind = .closeBrace) :
    ¬ Closing 0 (t :: tokens) := by
  intro h
  have := h.within [t] (List.cons_prefix_cons.2 ⟨rfl, List.nil_prefix⟩)
  simp [opens, closes, ht] at this

/-! ## The matching brace -/

/-- The walk passes over a token that is no brace. -/
theorem splitBody_cons_other {depth : Nat} {t : Token} {tokens : List Token} (h₁ : t.kind ≠ .openBrace)
    (h₂ : t.kind ≠ .closeBrace) :
    splitBody depth (t :: tokens) = (splitBody depth tokens).map fun (body, after) => (t :: body, after) := by
  cases hk : t.kind <;> simp_all [splitBody]

/-- Tokens are split at the brace whose tokens before it close what was open. -/
theorem splitBody_eq_some_iff {depth : Nat} {tokens body rest : List Token} :
    splitBody depth tokens = some (body, rest) ↔
      ∃ close, close.kind = .closeBrace ∧ tokens = body ++ close :: rest ∧ Closing depth body := by
  induction tokens generalizing depth body with
  | nil => simp [splitBody]
  | cons t tokens ih =>
    -- one step of the walk that keeps `t` for the body and goes on at the depth `inner`
    have keep (inner : Nat) (hc : ∀ body, Closing depth (t :: body) ↔ Closing inner body)
        (hs : splitBody depth (t :: tokens) = (splitBody inner tokens).map fun (body, after) => (t :: body, after))
        (hn : depth = 0 → t.kind ≠ .closeBrace) :
        splitBody depth (t :: tokens) = some (body, rest) ↔
          ∃ close, close.kind = .closeBrace ∧ t :: tokens = body ++ close :: rest ∧ Closing depth body := by
      rw [hs, Option.map_eq_some_iff]
      constructor
      · rintro ⟨⟨front, after⟩, hf, he⟩
        cases he
        obtain ⟨close, hk, he, hf⟩ := ih.1 hf
        exact ⟨close, hk, by rw [he, List.cons_append], (hc front).2 hf⟩
      · rintro ⟨close, hk, he, hb⟩
        cases body with
        | nil =>
          cases he
          exact absurd hk (hn (closing_nil.1 hb))
        | cons b front =>
          cases he
          exact ⟨(front, rest), ih.2 ⟨close, hk, rfl, (hc front).1 hb⟩, rfl⟩
    by_cases hclose : t.kind = .closeBrace
    · cases depth with
      | zero =>
        simp only [splitBody, hclose, Option.some.injEq, Prod.mk.injEq]
        constructor
        · rintro ⟨rfl, rfl⟩
          exact ⟨t, hclose, rfl, closing_nil.2 rfl⟩
        · rintro ⟨close, _, he, hb⟩
          cases body with
          | nil => cases he; exact ⟨rfl, rfl⟩
          | cons b front =>
            cases he
            exact absurd hb (not_closing_zero_cons hclose)
      | succ depth =>
        exact keep depth (fun _ => closing_cons_close hclose) (by simp [splitBody, hclose]) (by simp)
    · by_cases hopen : t.kind = .openBrace
      · exact keep (depth + 1) (fun _ => closing_cons_open hopen) (by simp [splitBody, hopen]) fun _ => hclose
      · exact keep depth (fun _ => closing_cons_other hopen hclose) (splitBody_cons_other hopen hclose) fun _ => hclose

/-! ## Balanced lists -/

theorem balanced_nil : Balanced [] :=
  closing_nil.2 rfl

/-- A token that is no brace keeps a list balanced. -/
theorem Balanced.cons {t : Token} {tokens : List Token} (h : Balanced tokens) (h₁ : t.kind ≠ .openBrace)
    (h₂ : t.kind ≠ .closeBrace) : Balanced (t :: tokens) :=
  (closing_cons_other h₁ h₂).2 h

/-- A balanced list in front does not change what is closed. -/
theorem Closing.append {depth : Nat} {a b : List Token} (ha : Balanced a) (hb : Closing depth b) :
    Closing depth (a ++ b) := by
  have hl := ha.level
  refine ⟨?_, ?_⟩
  · have := hb.level
    rw [opens_append, closes_append]
    omega
  · intro front hf
    rcases List.prefix_or_prefix_of_prefix hf (List.prefix_append a b) with hfa | ⟨back, rfl⟩
    · have := ha.within front hfa
      omega
    · have := hb.within back ((List.prefix_append_right_inj a).1 hf)
      rw [opens_append, closes_append]
      omega

theorem Balanced.append {a b : List Token} (ha : Balanced a) (hb : Balanced b) : Balanced (a ++ b) :=
  Closing.append ha hb

/-- Braces around a balanced list. -/
theorem Balanced.block {opening closing : Token} {tokens : List Token} (h : Balanced tokens)
    (ho : opening.kind = .openBrace) (hc : closing.kind = .closeBrace) :
    Balanced (opening :: (tokens ++ [closing])) :=
  (closing_cons_open ho).2 (Closing.append h ((closing_cons_close hc).2 (closing_nil.2 rfl)))

/-! ## Bodies -/

section Bodies

variable {ending : Option Location} {tokens inner rest after : List Token}

theorem body_eq_done : body ending tokens = .done inner rest ↔ splitBody 0 tokens = some (inner, rest) := by
  unfold body
  cases splitBody 0 tokens with
  | none => simp
  | some split => simp [Prod.ext_iff]

/-- Without a matching brace all tokens are read. -/
theorem body_eq_failed (h : splitBody 0 tokens = none) : body ending tokens = .failed ⟨ending, .endInBody⟩ [] := by
  rw [body, h]

/-- The brace `close` matches the one in front of `tokens`: it ends their balanced beginning `inner`, and `after` is
behind it. -/
structure ClosedBy (tokens inner : List Token) (close : Token) (after : List Token) : Prop where
  split : tokens = inner ++ close :: after
  brace : close.kind = .closeBrace
  balanced : Balanced inner

theorem splitBody_eq_iff : splitBody 0 tokens = some (inner, after) ↔ ∃ close, ClosedBy tokens inner close after := by
  rw [splitBody_eq_some_iff]
  constructor
  · rintro ⟨close, hk, hs, hb⟩
    exact ⟨close, hs, hk, hb⟩
  · rintro ⟨close, hs, hk, hb⟩
    exact ⟨close, hk, hs, hb⟩

theorem splitBody_eq_none (h : ∀ inner close after, ¬ ClosedBy tokens inner close after) :
    splitBody 0 tokens = none := by
  rw [Option.eq_none_iff_forall_ne_some]
  rintro ⟨inner, after⟩ hs
  obtain ⟨close, hc⟩ := splitBody_eq_iff.1 hs
  exact h inner close after hc

namespace ClosedBy

variable {close : Token}

/-- There is only one matching brace. -/
theorem unique (h : ClosedBy tokens inner close after) {inner' after' : List Token} {close' : Token}
    (h' : ClosedBy tokens inner' close' after') : inner' = inner ∧ close' = close ∧ after' = after := by
  -- the walk finds both
  have hs := splitBody_eq_iff.2 ⟨close, h⟩
  have hs' := splitBody_eq_iff.2 ⟨close', h'⟩
  rw [hs] at hs'
  cases hs'
  have he := h.split.symm.trans h'.split
  cases List.append_cancel_left he
  exact ⟨rfl, rfl, rfl⟩

/-- How far a parser has read when it stands behind the matching brace. -/
theorem position_eq {position : Nat} (h : ClosedBy (tokens.drop position) inner close after) :
    tokens.length - after.length = position + inner.length + 1 ∧ tokens.drop (position + inner.length + 1) = after := by
  have hlength := congrArg List.length h.split
  rw [List.length_drop, List.length_append, List.length_cons] at hlength
  refine ⟨by omega, ?_⟩
  rw [Nat.add_assoc, ← List.drop_drop, h.split, ← List.drop_drop, List.drop_left]
  rfl

end ClosedBy

end Bodies

/-- **A body ends at the matching brace.** From a position on, a body is read if and only if the tokens there are a
balanced list, a closing brace and a rest. There is only one way to split them so: the balanced list is the body, and
the parser goes on at the rest. Otherwise all tokens are read, and their early end is put down to the last of all. -/
theorem body_ends_at_matching_brace (tokens : List Token) (position : Nat) :
    let outcome := body (lastPlace tokens) (tokens.drop position)
    let reached := tokens.length - outcome.left.length
    (∀ inner after, outcome = .done inner after ↔ ∃ close, ClosedBy (tokens.drop position) inner close after) ∧
    (∀ inner close after, ClosedBy (tokens.drop position) inner close after →
      (∀ inner' close' after', ClosedBy (tokens.drop position) inner' close' after' →
        inner' = inner ∧ close' = close ∧ after' = after) ∧
      reached = position + inner.length + 1 ∧ tokens.drop reached = after) ∧
    ((∀ inner close after, ¬ ClosedBy (tokens.drop position) inner close after) →
      outcome = .failed ⟨tokens.getLast?.bind Token.place, .endInBody⟩ [] ∧ reached = tokens.length) ∧
    Reason.endInBody.text = ascii "unexpected EOF: expected close brace in function body" := by
  intro outcome reached
  refine ⟨fun inner after => body_eq_done.trans splitBody_eq_iff, ?_, ?_, rfl⟩
  · intro inner close after h
    have hdone : outcome = .done inner after := body_eq_done.2 (splitBody_eq_iff.2 ⟨close, h⟩)
    obtain ⟨hposition, hrest⟩ := h.position_eq
    have hreached : reached = position + inner.length + 1 := by
      simp only [reached, hdone, Outcome.left, hposition]
    exact ⟨fun inner' close' after' => h.unique, hreached, by rw [hreached, hrest]⟩
  · intro h
    have hfailed : outcome = .failed ⟨lastPlace tokens, .endInBody⟩ [] := body_eq_failed (splitBody_eq_none h)
    refine ⟨hfailed, ?_⟩
    simp only [reached, hfailed, Outcome.left, List.length_nil, Nat.sub_zero]

/-- The tokens `{ a { } } } b {`, behind the first of them and behind the last closing brace. -/
theorem body_ends_at_matching_brace_nested :
    let word (kind : Kind) (column : Int) : Token := ⟨kind, [], some ⟨[], 1, column, column - 1⟩, 1⟩
    let inner := [word .identifier 2, word .openBrace 3, word .closeBrace 4]
    let after := [word .closeBrace 6, word .identifier 7, word .openBrace 8]
    let tokens := word .openBrace 1 :: inner ++ word .closeBrace 5 :: after
    ClosedBy (tokens.drop 1) inner (word .closeBrace 5) after ∧
    body (lastPlace tokens) (tokens.drop 1) = .done inner after ∧
    tokens.length - (body (lastPlace tokens) (tokens.drop 1)).left.length = 5 ∧
    (∀ inner close after, ¬ ClosedBy (tokens.drop 6) inner close after) ∧
    body (lastPlace tokens) (tokens.drop 6) = .failed ⟨some ⟨[], 1, 8, 7⟩, .endInBody⟩ [] := by
  intro word inner after tokens
  have hclosed : ClosedBy (tokens.drop 1) inner (word .closeBrace 5) after := by
    refine ⟨rfl, rfl, ?_⟩
    have hblock : Balanced [word .openBrace 3, word .closeBrace 4] := balanced_nil.block rfl rfl
    exact hblock.cons (by decide) (by decide)
  have hopen : ∀ inner close after, ¬ ClosedBy (tokens.drop 6) inner close after := by
    intro inner close after h
    have hnone : splitBody 0 (tokens.drop 6) = none := by decide
    rw [splitBody_eq_iff.2 ⟨close, h⟩] at hnone
    cases hnone
  obtain ⟨hdone, hfound, _⟩ := body_ends_at_matching_brace tokens 1
  obtain ⟨_, _, hmissing, _⟩ := body_ends_at_matching_brace tokens 6
  exact ⟨hclosed, (hdone inner after).2 ⟨_, hclosed⟩, (hfound inner _ after hclosed).2.1, hopen, (hmissing hopen).1⟩

end CallLang.Parser
