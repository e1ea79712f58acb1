import CallLang.Proofs.Program.Concatenation
import CallLang.Proofs.Program.Preorder

/-!
# What a program reaches

An instruction is reached in a list if it is in the list, or in the body of a function that is reached. Parameters are
not looked into. The instructions that are reached are those that are met in order (`Instr.mem_allPreorder_iff`), and
the search for a call by its name finds one if one is reached (`Instr.callsAny_iff`).
-/

namespace CallLang

namespace Instr

/-- An instruction that is in a list, or at any depth in the body of a function there. -/
inductive Within (instrs : List Instr) : Instr → Prop where
  | here {i : Instr} (h : i ∈ instrs) : Within instrs i
  | inside {i : Instr} {name : Bytes} {parameters : Option (List Instr)} {body : List Instr} {type : ReturnType}
      {place : Option Location} (hf : Within instrs (.function name parameters (some body) type place))
      (h : i ∈ body) : Within instrs i

theorem mem_preorder_self (i : Instr) : i ∈ i.preorder := by
  cases i with
  | function name parameters body type place => exact List.mem_cons_self
  | _ => exact List.mem_singleton_self _

theorem allPreorder_eq_flatMap (instrs : List Instr) : allPreorder instrs = instrs.flatMap preorder := by
  induction instrs with
  | nil => rfl
  | cons i instrs ih => rw [allPreorder, List.flatMap_cons, ih]

section Meeting

variable {name : Bytes} {parameters : Option (List Instr)} {body instrs : List Instr} {type : ReturnType}
  {place : Option Location} {i : Instr}

mutual

/-- With a function, what is in its body is met. -/
theorem mem_preorder_of_body (f : Instr) (hf : .function name parameters (some body) type place ∈ f.preorder)
    (h : i ∈ body) : i ∈ f.preorder :=
  match f with
  | .missing => nomatch List.mem_singleton.1 hf
  | .literal _ _ => nomatch List.mem_singleton.1 hf
  | .importing _ _ _ => nomatch List.mem_singleton.1 hf
  | .call _ _ _ => nomatch List.mem_singleton.1 hf
  | .function _ _ block _ _ => by
    rcases List.mem_cons.1 hf with he | hin
    · cases he
      apply List.mem_cons_of_mem
      rw [blockPreorder, allPreorder_eq_flatMap]
      exact List.mem_flatMap.2 ⟨i, h, mem_preorder_self i⟩
    · exact List.mem_cons_of_mem _ (mem_blockPreorder_of_body block hin h)

theorem mem_blockPreorder_of_body (block : Option (List Instr))
    (hf : .function name parameters (some body) type place ∈ blockPreorder block) (h : i ∈ body) :
    i ∈ blockPreorder block :=
  match block with
  | none => nomatch hf
  | some instrs => mem_allPreorder_of_body instrs hf h

theorem mem_allPreorder_of_body (instrs : List Instr)
    (hf : .function name parameters (some body) type place ∈ allPreorder instrs) (h : i ∈ body) :
    i ∈ allPreorder instrs :=
  match instrs with
  | [] => nomatch hf
  | f :: rest => by
    rcases List.mem_append.1 hf with hin | hin
    · exact List.mem_append_left _ (mem_preorder_of_body f hin h)
    · exact List.mem_append_right _ (mem_allPreorder_of_body rest hin h)

end

mutual

/-- What is met in an instruction that is reached is reached. -/
theorem within_of_mem_preorder (f : Instr) (hf : Within instrs f) (h : i ∈ f.preorder) : Within instrs i :=
  match f with
  | .missing => List.mem_singleton.1 h ▸ hf
  | .literal _ _ => List.mem_singleton.1 h ▸ hf
  | .importing _ _ _ => List.mem_singleton.1 h ▸ hf
  | .call _ _ _ => List.mem_singleton.1 h ▸ hf
  | .function _ _ none _ _ => List.mem_singleton.1 h ▸ hf
  | .function _ _ (some body) _ _ => by
    rcases List.mem_cons.1 h with rfl | hin
    · exact hf
    · exact within_of_mem_allPreorder body (fun _ => .inside hf) hin

theorem within_of_mem_allPreorder (list : List Instr) (hl : ∀ f ∈ list, Within instrs f) (h : i ∈ allPreorder list) :
    Within instrs i :=
  match list with
  | [] => nomatch h
  | f :: rest => by
    rcases List.mem_append.1 h with hin | hin
    · exact within_of_mem_preorder f (hl f List.mem_cons_self) hin
    · exact within_of_mem_allPreorder rest (fun g hg => hl g (List.mem_cons_of_mem _ hg)) hin

end

/-- **What is met is what is reached.** -/
theorem mem_allPreorder_iff : i ∈ allPreorder instrs ↔ Within instrs i := by
  constructor
  · exact within_of_mem_allPreorder instrs fun _ => .here
  · intro h
    induction h with
    | here h =>
      rw [allPreorder_eq_flatMap]
      exact List.mem_flatMap.2 ⟨_, h, mem_preorder_self _⟩
    | inside _ h ih => exact mem_allPreorder_of_body instrs ih h

end Meeting

/-! ## Calls -/

/-- Whether an instruction is itself a call with a name that satisfies `p`. -/
def isCall (p : Bytes → Bool) : Instr → Bool
  | .call name _ _ => p name
  | _ => false

variable {p : Bytes → Bool}

theorem isCall_iff {i : Instr} : i.isCall p = true ↔ ∃ name operands place, i = .call name operands place ∧ p name := by
  cases i with
  | call name operands place => simp [isCall]
  | _ => simp [isCall]

mutual

theorem calls_preorder (i : Instr) : i.calls p = i.preorder.any (isCall p) :=
  match i with
  | .missing => rfl
  | .literal _ _ => rfl
  | .importing _ _ _ => rfl
  | .call name _ _ => (Bool.or_false (p name)).symm
  | .function _ _ body _ _ => callsBlock_preorder body

theorem callsBlock_preorder (block : Option (List Instr)) : callsBlock p block = (blockPreorder block).any (isCall p) :=
  match block with
  | none => rfl
  | some instrs => callsAny_preorder instrs

theorem callsAny_preorder (instrs : List Instr) : callsAny p instrs = (allPreorder instrs).any (isCall p) :=
  match instrs with
  | [] => rfl
  | i :: rest => by
    rw [callsAny, calls_preorder i, callsAny_preorder rest, allPreorder, List.any_append]

end

/-- A call is found if one is reached. -/
theorem callsAny_iff {instrs : List Instr} :
    callsAny p instrs = true ↔ ∃ name operands place, Within instrs (.call name operands place) ∧ p name := by
  rw [callsAny_preorder, List.any_eq_true]
  constructor
  · rintro ⟨i, hi, hcall⟩
    obtain ⟨name, operands, place, rfl, hp⟩ := isCall_iff.1 hcall
    exact ⟨name, operands, place, mem_allPreorder_iff.1 hi, hp⟩
  · rintro ⟨name, operands, place, hw, hp⟩
    exact ⟨_, mem_allPreorder_iff.2 hw, hp⟩

end Instr

theorem Program.preorder_eq (p : Program) : p.preorder = Instr.allPreorder p.instrs := by
  rw [preorder, instrs]
  cases p.instructions <;> rfl

end CallLang
