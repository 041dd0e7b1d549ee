/-
Walks that match part by part.

Two walks match if they have as many visits and any two in the same place are to parts
that are related, and so are the parts before them (`Visit.Matches`). The walk over a
list is made of the walks over its elements, and what stands under a field is found by
its key or its place; so the walks over two lists, tasks or plays match if what is in
them does.

Parts are alike if they differ in nothing but what is visited on its own, or in the
module that a scalar with a key is a parameter of (`Part.Alike`).
-/

import PlaybookStyle.Proofs.Playbook.Tasks

namespace PlaybookStyle.Playbook

open Outline (Node)

/-! ### Related parts -/

/-- Parts that differ in nothing that is said of them themselves. -/
inductive Part.Alike : Part → Part → Prop
  | refl (part : Part) : Alike part part
  | play (p : Play) (sections : List PlaySection) :
      Alike (.play p) (.play { p with sections := sections })
  | task (t : Task) (nested : List Nested) : Alike (.task t) (.task { t with nested := nested })
  | entry (e : Entry) (value : Value) : Alike (.entry e) (.entry { e with value := value })
  | scalar (s : Scalar) (module? : Option String) (keyed : s.key?.isSome = true) :
      Alike (.scalar s) (.scalar { s with module? := module? })

variable {R : Part → Part → Prop}

/-- Visits to related parts, with related parts before them. -/
structure Visit.Matches (R : Part → Part → Prop) (visit visit' : Visit) : Prop where
  part : R visit.part visit'.part
  previous? : Option.Rel R visit.previous? visit'.previous?

theorem Visit.Matches.alone {part part' : Part} (h : R part part') :
    Visit.Matches R (.alone part) (.alone part') :=
  ⟨h, .none⟩

theorem Visit.Matches.mono {S : Part → Part → Prop} (imp : ∀ part part', R part part' → S part part')
    {visit visit' : Visit} (h : visit.Matches R visit') : visit.Matches S visit' := by
  obtain ⟨part, previous?⟩ := visit
  obtain ⟨part', previous?'⟩ := visit'
  obtain ⟨hpart, hprevious⟩ := h
  refine ⟨imp _ _ hpart, ?_⟩
  cases hprevious with
  | none => exact .none
  | some hprevious => exact .some (imp _ _ hprevious)

/-- Elements of task lists that are related, with matching walks over what is in them. -/
structure TaskItem.Matches (R : Part → Part → Prop) (item item' : TaskItem) : Prop where
  part : R item.part item'.part
  inside : List.Forall₂ (Visit.Matches R) (visitsOfItem item) (visitsOfItem item')

/-- Blocks that are related, with matching walks over what is in them. -/
structure Block.Matches (R : Part → Part → Prop) (block block' : Block) : Prop where
  part : R block.part block'.part
  inside : List.Forall₂ (Visit.Matches R) block.visits block'.visits

section Same

variable (same : ∀ part, R part part)

include same

theorem Visit.Matches.refl (visit : Visit) : visit.Matches R visit := by
  refine ⟨same _, ?_⟩
  cases visit.previous? with
  | none => exact .none
  | some part => exact .some (same part)

theorem matches_self (visits : List Visit) : List.Forall₂ (Visit.Matches R) visits visits :=
  List.forall₂_same.mpr fun visit _ => .refl same visit

theorem TaskItem.Matches.refl (item : TaskItem) : item.Matches R item :=
  ⟨same _, matches_self same _⟩

theorem Block.Matches.refl (block : Block) : block.Matches R block :=
  ⟨same _, matches_self same _⟩

end Same

/-! ### Lists -/

theorem visitsOfItems_matches {items items' : List TaskItem}
    (h : List.Forall₂ (TaskItem.Matches R) items items') {previous? previous?' : Option Part}
    (hprevious : Option.Rel R previous? previous?') :
    List.Forall₂ (Visit.Matches R) (visitsOfItems previous? items)
      (visitsOfItems previous?' items') := by
  induction h generalizing previous? previous?' with
  | nil =>
    rw [visitsOfItems, visitsOfItems]
    exact .nil
  | cons hitem _ ih =>
    rw [visitsOfItems, visitsOfItems]
    exact .cons ⟨hitem.part, hprevious⟩ (List.rel_append hitem.inside (ih (.some hitem.part)))

theorem visitsOfBlocks_matches {blocks blocks' : List Block}
    (h : List.Forall₂ (Block.Matches R) blocks blocks') {previous? previous?' : Option Part}
    (hprevious : Option.Rel R previous? previous?') :
    List.Forall₂ (Visit.Matches R) (visitsOfBlocks previous? blocks)
      (visitsOfBlocks previous?' blocks') := by
  induction h generalizing previous? previous?' with
  | nil => exact .nil
  | cons hblock _ ih =>
    exact .cons ⟨hblock.part, hprevious⟩ (List.rel_append hblock.inside (ih (.some hblock.part)))

/-- What is made of the elements of a list is related if what each is made into is. -/
theorem forall₂_filterMap {α β γ : Type} {S : β → γ → Prop} {list : List α} {f : α → Option β}
    {g : α → Option γ} (h : ∀ a ∈ list, Option.Rel S (f a) (g a)) :
    List.Forall₂ S (list.filterMap f) (list.filterMap g) := by
  induction list with
  | nil => exact .nil
  | cons a rest ih =>
    obtain ⟨hfirst, hrest⟩ := List.forall_mem_cons.mp h
    rw [List.filterMap_cons, List.filterMap_cons]
    generalize f a = made at hfirst
    generalize g a = made' at hfirst
    cases hfirst with
    | none => exact ih hrest
    | some hfirst => exact .cons hfirst (ih hrest)

/-! ### Tasks and plays -/

/-- Under a field that is no module two tasks with the same entries have what matches, if
the nested lists do. -/
theorem TaskOf.visitsOfField_matches (same : ∀ part, R part part) {t t' : Task}
    (entries : t'.entries = t.entries) {lists lists' : List (String × List Visit)}
    {field field' : Field TaskFieldKind} (key : field'.key = field.key)
    (nested : Option.Rel (List.Forall₂ (Visit.Matches R)) (lists.lookup field.key)
      (lists'.lookup field.key))
    (module : t'.module?.filter (·.name == field.key) = t.module?.filter (·.name == field.key)) :
    List.Forall₂ (Visit.Matches R) (t.visitsOfField lists field) (t'.visitsOfField lists' field') := by
  unfold TaskOf.visitsOfField TaskOf.entryOf?
  rw [entries, key, module]
  cases t.entries.find? (·.key == field.key) with
  | some entry => exact matches_self same _
  | none =>
    dsimp only
    generalize lists.lookup field.key = list at nested
    generalize lists'.lookup field.key = list' at nested
    cases nested with
    | none => exact matches_self same _
    | some h => exact h

/-- Plays that differ in their sections match if the sections at a place do. -/
theorem Play.visits_matches (same : ∀ part, R part part) {p : Play} {sections : List PlaySection}
    (h : List.Forall₂ (fun s s' => s'.position = s.position ∧
      List.Forall₂ (Visit.Matches R) s.items.visits s'.items.visits) p.sections sections) :
    List.Forall₂ (Visit.Matches R) p.visits { p with sections := sections }.visits := by
  have hfind : ∀ place : Position, Option.Rel (fun s s' : PlaySection =>
      List.Forall₂ (Visit.Matches R) s.items.visits s'.items.visits)
      (p.sections.find? (·.position == place)) (sections.find? (·.position == place)) := by
    intro place
    generalize p.sections = old at h
    induction h with
    | nil => exact .none
    | cons hfirst _ ih =>
      rw [List.find?_cons, List.find?_cons, hfirst.1]
      split
      · exact .some hfirst.2
      · exact ih
  refine forall₂_flatMap fun field _ => ?_
  unfold Play.visitsOfField Play.entryOf?
  dsimp only
  split
  · exact matches_self same _
  · have hplace := hfind field.position
    revert hplace
    generalize p.sections.find? (·.position == field.position) = found
    generalize sections.find? (·.position == field.position) = found'
    intro hplace
    cases hplace with
    | none => exact .nil
    | some h => simpa using h

/-! ### Values -/

/-- The parameters of a module are the same for another one of its kind, but for the name
of the module. -/
theorem ofNode_matches (n : Node) {key? : Option String} (keyed : key?.isSome = true) {scope : Scope}
    {module? : Option String} (short : module?.map shortModuleName = scope.module?.map shortModuleName) :
    List.Forall₂ (Visit.Matches Part.Alike) (Value.ofNode key? scope n).visits
      (Value.ofNode key? { scope with module? := module? } n).visits := by
  induction n using Outline.Node.allEntries.induct generalizing key? scope with
  | case1 position entries ih =>
    rw [Value.ofNode, Value.ofNode, Value.visits, Value.visits, visitsOfEntries_eq_flatMap,
      visitsOfEntries_eq_flatMap, entriesOf_eq_map, entriesOf_eq_map, List.flatMap_map,
      List.flatMap_map]
    refine forall₂_flatMap fun entry hentry => ?_
    rw [visitsOfEntry_eq, visitsOfEntry_eq, entryOf_eq, entryOf_eq]
    exact .cons (.alone (.entry _ _)) (ih entry hentry rfl short)
  | case2 position items ih =>
    rw [Value.ofNode, Value.ofNode, Value.visits, Value.visits, visitsOfValues_eq_flatMap,
      visitsOfValues_eq_flatMap, itemsOf_eq_map, itemsOf_eq_map, List.flatMap_map, List.flatMap_map]
    exact forall₂_flatMap fun item hitem => ih item hitem keyed short
  | case3 s =>
    have hkind : kindOf s.style s.text key? scope.context module? =
        kindOf s.style s.text key? scope.context scope.module? := by
      unfold kindOf parameterKind?
      rw [short]
    rw [Value.ofNode, Value.ofNode, Value.visits, Value.visits]
    refine .cons (.alone ?_) .nil
    rw [Scalar.ofOutline, Scalar.ofOutline, hkind]
    exact .scalar _ _ keyed
  | case4 =>
    rw [Value.ofNode, Value.ofNode, Value.visits]
    exact .nil

end PlaybookStyle.Playbook
