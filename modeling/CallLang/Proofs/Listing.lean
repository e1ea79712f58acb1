import CallLang.Listing
import CallLang.Proofs.C.Items

/-!
# Listings determine what they list

An `Outline` is a head with outlines in it. It is listed by going through it in preorder, with each head on a line of its
own that is indented by its depth.

- `Outline.eq_of_allLeveled`: a row of outlines can be read back from its heads and their depths, since what is in an
  item goes on just as long as the depths are greater than its own;
- `Line.eq_of_renderAll`: lines can be read back from how they are written, if their texts are `Legible`: a text without
  a line feed ends where the line ends, and one that starts with no space starts where the indentation ends;
- `Outline.eq_of_listing` puts both together, for labels that tell what is kept of a head.
-/

namespace CallLang

/-- Two texts that are followed by a byte that is in neither of them. -/
theorem eq_of_append_cons {α : Type} {x : α} {a b rest rest' : List α} (ha : x ∉ a) (hb : x ∉ b)
    (h : a ++ x :: rest = b ++ x :: rest') : a = b ∧ rest = rest' := by
  induction a generalizing b with
  | nil =>
    cases b with
    | nil => exact ⟨rfl, (List.cons.inj h).2⟩
    | cons y b => exact absurd ((List.cons.inj h).1 ▸ List.mem_cons_self) hb
  | cons y a ih =>
    cases b with
    | nil => exact absurd ((List.cons.inj h).1 ▸ List.mem_cons_self) ha
    | cons z b =>
      obtain ⟨rfl, hrest⟩ := List.cons.inj h
      obtain ⟨rfl, hr⟩ := ih (List.not_mem_of_not_mem_cons ha) (List.not_mem_of_not_mem_cons hb) hrest
      exact ⟨rfl, hr⟩

/-- If what `f` shows of each element tells what `g` shows of it, then it does so for lists. -/
theorem map_eq_map_of {α β γ : Type} {f : α → β} {g : α → γ} {l l' : List α} (h : l.map f = l'.map f)
    (hfg : ∀ a ∈ l, ∀ b ∈ l', f a = f b → g a = g b) : l.map g = l'.map g := by
  induction l generalizing l' with
  | nil =>
    rw [List.map_eq_nil_iff.1 h.symm]
  | cons a l ih =>
    obtain ⟨b, later, rfl, hb, hl⟩ := List.map_eq_cons_iff.1 h.symm
    rw [List.map_cons, List.map_cons, hfg a List.mem_cons_self b List.mem_cons_self hb.symm,
      ih hl.symm fun c hc d hd => hfg c (List.mem_cons_of_mem _ hc) d (List.mem_cons_of_mem _ hd)]

/-! ## Outlines -/

/-- A head, and outlines in it. -/
inductive Outline (α : Type) where
  | item (head : α) (inner : List (Outline α))

namespace Outline

variable {α β : Type}

mutual

/-- The heads of an outline in preorder, each with its depth. -/
def leveled (depth : Nat) : Outline α → List (Nat × α)
  | .item head inner => (depth, head) :: allLeveled (depth + 1) inner

/-- The heads of a row of outlines. -/
def allLeveled (depth : Nat) : List (Outline α) → List (Nat × α)
  | [] => []
  | o :: rest => leveled depth o ++ allLeveled depth rest

end

mutual

/-- The outline with other heads. -/
def map (f : α → β) : Outline α → Outline β
  | .item head inner => .item (f head) (mapAll f inner)

/-- A row of outlines with other heads. -/
def mapAll (f : α → β) : List (Outline α) → List (Outline β)
  | [] => []
  | o :: rest => map f o :: mapAll f rest

end

mutual

/-- What a head and the values of what is in it make up. -/
def fold (f : α → List β → β) : Outline α → β
  | .item head inner => f head (foldAll f inner)

/-- The values of a row of outlines. -/
def foldAll (f : α → List β → β) : List (Outline α) → List β
  | [] => []
  | o :: rest => fold f o :: foldAll f rest

end

mutual

theorem leveled_map (f : α → β) (depth : Nat) (o : Outline α) :
    leveled depth (o.map f) = (leveled depth o).map (Prod.map id f) :=
  match o with
  | .item head inner => by
    rw [map, leveled, leveled, allLeveled_mapAll f (depth + 1) inner]
    rfl

theorem allLeveled_mapAll (f : α → β) (depth : Nat) (os : List (Outline α)) :
    allLeveled depth (mapAll f os) = (allLeveled depth os).map (Prod.map id f) :=
  match os with
  | [] => rfl
  | o :: rest => by
    rw [mapAll, allLeveled, allLeveled, leveled_map f depth o, allLeveled_mapAll f depth rest, List.map_append]

end

/-! ## Reading an outline back -/

/-- The first of the heads that follow is not deeper than `depth`. -/
def Ends (depth : Nat) (rest : List (Nat × α)) : Prop :=
  ∀ e ∈ rest.head?, e.1 ≤ depth

theorem ends_allLeveled (depth : Nat) (os : List (Outline α)) {rest : List (Nat × α)} (h : Ends depth rest) :
    Ends depth (allLeveled depth os ++ rest) := by
  cases os with
  | nil => exact h
  | cons o os =>
    obtain ⟨head, inner⟩ := o
    rintro _ ⟨⟩
    exact Nat.le_refl depth

mutual

/-- An outline is determined by its heads and their depths, and it ends where they are not deeper than its own. -/
theorem eq_of_leveled {depth : Nat} (o o' : Outline α) {rest rest' : List (Nat × α)}
    (h : leveled depth o ++ rest = leveled depth o' ++ rest') (he : Ends depth rest) (he' : Ends depth rest') :
    o = o' ∧ rest = rest' :=
  match o, o' with
  | .item head inner, .item head' inner' => by
    obtain ⟨hhead, hinner⟩ := List.cons.inj h
    obtain ⟨rfl, rfl⟩ := eq_of_allLeveled inner inner' hinner (fun e hm => Nat.lt_succ_of_le (he e hm))
      (fun e hm => Nat.lt_succ_of_le (he' e hm))
    obtain ⟨_, rfl⟩ := Prod.mk.inj hhead
    exact ⟨rfl, rfl⟩

/-- So is a row of outlines, where what follows is less deep. -/
theorem eq_of_allLeveled {depth : Nat} (os os' : List (Outline α)) {rest rest' : List (Nat × α)}
    (h : allLeveled depth os ++ rest = allLeveled depth os' ++ rest') (he : ∀ e ∈ rest.head?, e.1 < depth)
    (he' : ∀ e ∈ rest'.head?, e.1 < depth) : os = os' ∧ rest = rest' :=
  match os, os' with
  | [], [] => ⟨rfl, h⟩
  | [], .item head inner :: os' => by
    have hhead : (depth, head) ∈ rest.head? := by
      rw [show rest = _ from h]
      rfl
    exact absurd (he _ hhead) (Nat.lt_irrefl depth)
  | .item head inner :: os, [] => by
    have hhead : (depth, head) ∈ rest'.head? := by
      rw [show rest' = _ from h.symm]
      rfl
    exact absurd (he' _ hhead) (Nat.lt_irrefl depth)
  | o :: os, o' :: os' => by
    rw [allLeveled, allLeveled, List.append_assoc, List.append_assoc] at h
    obtain ⟨rfl, hrest⟩ := eq_of_leveled o o' h (ends_allLeveled depth os fun e hm => Nat.le_of_lt (he e hm))
      (ends_allLeveled depth os' fun e hm => Nat.le_of_lt (he' e hm))
    obtain ⟨rfl, hr⟩ := eq_of_allLeveled os os' hrest he he'
    exact ⟨rfl, hr⟩

end

theorem allLeveled_injective {depth : Nat} {os os' : List (Outline α)} (h : allLeveled depth os = allLeveled depth os') :
    os = os' := by
  rw [← List.append_nil (allLeveled depth os), ← List.append_nil (allLeveled depth os')] at h
  exact (eq_of_allLeveled os os' h nofun nofun).1

end Outline

/-! ## Reading lines back -/

/-- A text that can be told from what is around it in a line: it has no line feed, and it starts with no space. -/
def Legible (text : Bytes) : Prop :=
  0x0A ∉ text ∧ ∃ b rest, text = b :: rest ∧ b ≠ 0x20

/-- A word, a space and a text without a line feed. -/
theorem Legible.before_space {word text : Bytes} (hw : Legible word) (ht : 0x0A ∉ text) :
    Legible (word ++ 0x20 :: text) := by
  refine ⟨?_, ?_⟩
  · rw [List.mem_append, List.mem_cons, not_or, not_or]
    exact ⟨hw.1, by decide, ht⟩
  · obtain ⟨_, b, rest, rfl, hb⟩ := hw
    exact ⟨b, rest ++ 0x20 :: text, rfl, hb⟩

namespace Line

theorem indent_eq (depth : Nat) : Bytes.indent depth = List.replicate (2 * depth) 0x20 := by
  induction depth with
  | zero => rfl
  | succ depth ih =>
    rw [Nat.mul_succ, List.replicate_succ, List.replicate_succ, ← ih]
    rfl

theorem render_eq (l : Line) : l.render = List.replicate (2 * l.depth) 0x20 ++ l.text ++ [0x0A] := by
  rw [render, indent_eq]
  rfl

/-- Indentation ends where a legible text starts. -/
theorem eq_of_indent {l l' : Line} (hl : Legible l.text) (hl' : Legible l'.text)
    (h : List.replicate (2 * l.depth) 0x20 ++ l.text = List.replicate (2 * l'.depth) 0x20 ++ l'.text) : l = l' := by
  obtain ⟨depth, text⟩ := l
  obtain ⟨depth', text'⟩ := l'
  obtain ⟨_, b, rest, rfl, hb⟩ := hl
  obtain ⟨_, b', rest', rfl, hb'⟩ := hl'
  have spaces (n : Nat) : ∀ a ∈ List.replicate n (0x20 : UInt8), (a == 0x20) = true :=
    fun a ha => beq_iff_eq.2 (List.eq_of_mem_replicate ha)
  obtain ⟨ht, hd⟩ := C.takeWhile_run (spaces (2 * depth)) (beq_false_of_ne hb) rest
  obtain ⟨ht', hd'⟩ := C.takeWhile_run (spaces (2 * depth')) (beq_false_of_ne hb') rest'
  dsimp only at h
  rw [h, ht'] at ht
  rw [h, hd'] at hd
  have hdepth := congrArg List.length ht
  rw [List.length_replicate, List.length_replicate] at hdepth
  rw [Line.mk.injEq]
  exact ⟨by omega, hd.symm⟩

/-- Lines are determined by how they are written. -/
theorem eq_of_renderAll {lines lines' : List Line} (hl : ∀ l ∈ lines, Legible l.text)
    (hl' : ∀ l ∈ lines', Legible l.text) (h : renderAll lines = renderAll lines') : lines = lines' := by
  have first (l : Line) (rest : List Line) :
      renderAll (l :: rest) = List.replicate (2 * l.depth) 0x20 ++ l.text ++ 0x0A :: renderAll rest := by
    rw [renderAll, List.flatMap_cons, render_eq, List.append_assoc]
    rfl
  have noFeed {l : Line} (hl : Legible l.text) : 0x0A ∉ List.replicate (2 * l.depth) 0x20 ++ l.text := by
    rw [List.mem_append, not_or]
    exact ⟨fun hm => absurd (List.eq_of_mem_replicate hm) (by decide), hl.1⟩
  induction lines generalizing lines' with
  | nil =>
    cases lines' with
    | nil => rfl
    | cons l' rest' =>
      rw [first] at h
      exact absurd h.symm (List.append_ne_nil_of_right_ne_nil _ (List.cons_ne_nil _ _))
  | cons l rest ih =>
    cases lines' with
    | nil =>
      rw [first] at h
      exact absurd h (List.append_ne_nil_of_right_ne_nil _ (List.cons_ne_nil _ _))
    | cons l' rest' =>
      rw [List.forall_mem_cons] at hl hl'
      rw [first, first] at h
      obtain ⟨hline, hrest⟩ := eq_of_append_cons (noFeed hl.1) (noFeed hl'.1) h
      rw [eq_of_indent hl.1 hl'.1 hline, ih hl.2 hl'.2 hrest]

end Line

/-! ## Listings of outlines -/

namespace Outline

variable {α β : Type}

/-- The line of a head at its depth, with what `label` shows of it. -/
def line (label : α → Bytes) (e : Nat × α) : Line :=
  ⟨e.1, label e.2⟩

/-- The lines of a row of outlines. -/
def listing (label : α → Bytes) (depth : Nat) (os : List (Outline α)) : List Line :=
  (allLeveled depth os).map (line label)

/-- A text lists outlines: it has one line for each head, in preorder, with two spaces in front of its label for each
level. No label goes on over the end of its line. -/
def Lists (label : α → Bytes) (os : List (Outline α)) (text : Bytes) : Prop :=
  text = ((allLeveled 1 os).flatMap fun e => List.replicate (2 * e.1) 0x20 ++ label e.2 ++ [0x0A]) ∧
    ∀ e ∈ allLeveled 1 os, 0x0A ∉ label e.2

theorem lists_renderAll {label : α → Bytes} {os : List (Outline α)}
    (h : ∀ e ∈ allLeveled 1 os, Legible (label e.2)) : Lists label os (Line.renderAll (listing label 1 os)) := by
  refine ⟨?_, fun e he => (h e he).1⟩
  rw [Line.renderAll, listing, List.flatMap_map]
  simp only [Line.render_eq, line]

/-- A listing determines its outlines, but for what its labels do not tell of a head. -/
theorem eq_of_listing {label : α → Bytes} {front : α → β} {p : α → Prop} {depth : Nat} {os os' : List (Outline α)}
    (hlegible : ∀ a, p a → Legible (label a)) (hfront : ∀ a b, p a → p b → label a = label b → front a = front b)
    (hp : ∀ e ∈ allLeveled depth os, p e.2) (hp' : ∀ e ∈ allLeveled depth os', p e.2)
    (h : Line.renderAll (listing label depth os) = Line.renderAll (listing label depth os')) :
    mapAll front os = mapAll front os' := by
  have hlines : listing label depth os = listing label depth os' := by
    apply Line.eq_of_renderAll _ _ h
    · exact List.forall_mem_map.2 fun e he => hlegible _ (hp e he)
    · exact List.forall_mem_map.2 fun e he => hlegible _ (hp' e he)
  have hheads : allLeveled depth (mapAll front os) = allLeveled depth (mapAll front os') := by
    rw [allLeveled_mapAll, allLeveled_mapAll]
    refine map_eq_map_of hlines fun e he e' he' hline => ?_
    obtain ⟨hdepth, hlabel⟩ := Line.mk.inj hline
    exact Prod.ext hdepth (hfront _ _ (hp e he) (hp' e' he') hlabel)
  exact allLeveled_injective hheads

end Outline

end CallLang
