/-
When the outline has all keys of a playbook.

A playbook is read twice: as a YAML value, and as an outline of its layout. The
two are only compared by the number of items at the top. `Complete` says that
they agree on the keys of every item and that no line is left over. For a
playbook laid out in blocks, with keys and scalars of `blockWriting`, this is so
exactly if no scalar is shallow (`complete_iff`): such a scalar ends too early,
and all keys behind it are lost.
-/

import Mathlib.Data.List.Forall2
import PlaybookStyle.Playbook.Build
import PlaybookStyle.Proofs.Outline.Courses
import PlaybookStyle.Proofs.Outline.Leaves

namespace PlaybookStyle

open Outline Text

/-! ### Keys of values -/

namespace Yaml

/-- The value of plain text, unless it is a number too large for any. -/
def Plain.value? (text : String) : Option Value :=
  match Plain.ofText text with
  | .null => some .null
  | .boolean b => some (.boolean b)
  | .number n => some (.number n)
  | .oversized _ => none
  | .string => some (.string text)

/-- The value of a key written as some text, plain or between quotes. -/
def Value.isKey (value : Value) (text : String) : Bool :=
  value.same (.string text) || (Plain.value? text).any value.same

/-- A mapping has some keys, in this order. -/
def Value.hasKeys (value : Value) (keys : List String) : Bool :=
  match value.untagged with
  | .mapping pairs => decide (List.Forall₂ (fun pair key => pair.1.isKey key = true) pairs keys)
  | _ => false

end Yaml

namespace Playbook

/-- The outline of a text has all keys of all items of its value, in their order,
and no line is left over. -/
structure Complete (text : String) (values : List Yaml.Value) : Prop where
  keys : ∃ position items, (scan text.toList).root = .sequence position items ∧
    List.Forall₂ (fun value item => ∀ entries ∈ item.value.entries?,
      value.hasKeys (entries.map Outline.Entry.key) = true) values items
  lines : (node (.ofText text.toList)).1.2.lines = []

/-- An item's value has the keys of a tree, if the tree has keys. -/
def isItemOf {α : Type} (value : Yaml.Value) : Outline.Tree α → Bool
  | .mapping entries => value.hasKeys (entries.map fun entry => String.ofList entry.1)
  | _ => true

/-- A value is a list with the items of a tree. -/
def isValueOf {α : Type} (value : Yaml.Value) : Outline.Tree α → Bool
  | .sequence items =>
    match value with
    | .sequence values =>
      decide (List.Forall₂ (fun value item => isItemOf value item = true) values items)
    | _ => false
  | _ => false

/-! ### Keys of outlines -/

section Trees

variable {α : Type} {view : Outline.Scalar → α}

theorem entryTrees_keys (entries : List (Outline.Entry Outline.Node)) :
    (entryTrees view entries).map (fun entry => String.ofList entry.1) =
      entries.map Outline.Entry.key := by
  induction entries with
  | nil => rw [entryTrees, List.map_nil, List.map_nil]
  | cons entry rest ih =>
    rw [entryTrees_cons, List.map_cons, List.map_cons, ih, String.ofList_toList]

theorem itemTrees_eq_map (items : List (Outline.Item Outline.Node)) :
    itemTrees view items = items.map fun item => item.value.tree view := by
  induction items with
  | nil => rw [itemTrees, List.map_nil]
  | cons item rest ih => rw [itemTrees_cons, List.map_cons, ih]

theorem hasKeys_of_isItemOf {value : Yaml.Value} {n : Outline.Node}
    (h : isItemOf value (n.tree view) = true) :
    ∀ entries ∈ n.entries?, value.hasKeys (entries.map Outline.Entry.key) = true := by
  cases n with
  | mapping position list =>
    rintro _ ⟨⟩
    rw [Outline.Node.tree] at h
    have hkeys : (entryTrees view list).map (fun entry => String.ofList entry.1) =
        list.map Outline.Entry.key := entryTrees_keys list
    rw [← hkeys]
    exact h
  | sequence | scalar | empty =>
    rintro _ ⟨⟩

/-- What renders a list is read as one, with the items' keys. -/
theorem exists_items_of_isValueOf {values : List Yaml.Value} {n : Outline.Node}
    (h : isValueOf (.sequence values) (n.tree view) = true) :
    ∃ position items, n = .sequence position items ∧
      List.Forall₂ (fun value item => ∀ entries ∈ item.value.entries?,
        value.hasKeys (entries.map Outline.Entry.key) = true) values items := by
  cases n with
  | sequence position items =>
    rw [Outline.Node.tree, itemTrees_eq_map] at h
    have hitems := List.forall₂_map_right_iff.mp (of_decide_eq_true h)
    exact ⟨position, items, rfl, hitems.imp fun value item hitem => hasKeys_of_isItemOf hitem⟩
  | mapping | scalar | empty =>
    rw [Outline.Node.tree] at h
    cases h

end Trees

/-! ### Accepted texts -/

/-- The value of a playbook's text is a list. -/
theorem exists_values_of_parse {path text : String} {playbook : Playbook}
    (h : parse path text = .ok playbook) :
    ∃ values, Yaml.Value.read text = .ok (.sequence values) := by
  unfold parse at h
  split at h
  · cases h
  · rename_i value hvalue
    split at h
    · cases h
    · rename_i hbuild
      cases value with
      | sequence values => exact ⟨values, hvalue⟩
      | null | mapping | boolean | number | string | tagged => cases hbuild

/-- **The outline of a playbook is complete exactly if no scalar is shallow.** For
every accepted text whose lines lay a tree out in blocks, of which YAML reads the
keys as the tree has them: the outline has the keys of every item and leaves no
line over, if and only if every scalar on lines of its own keeps, where depth
tells its lines apart, to the depth of its first line. -/
theorem complete_iff {path text : String} {playbook : Playbook} {tree : Outline.Tree Course}
    {k : Nat} {blocks : List BlockLine} (accepted : parse path text = .ok playbook)
    (rendered : Rendered blockWriting tree k blocks)
    (document : Document blocks (splitLines text.toList))
    (reading : ∀ value, Yaml.Value.read text = .ok value → isValueOf value tree = true) :
    (∀ values, Yaml.Value.read text = .ok (.sequence values) → Complete text values) ↔
      tree.All (· = .straight) := by
  obtain ⟨n, after, hnode, htree, hends⟩ := document.read blockWriting_legible rendered
  have hlines : (node (.ofText text.toList)).1.2.lines = after.lines := by rw [hnode.eq]
  constructor
  · intro hcomplete
    by_contra hshallow
    obtain ⟨values, hvalues⟩ := exists_values_of_parse accepted
    obtain ⟨next, hnext, -⟩ := hends.stuck hshallow
    rw [← hlines, (hcomplete values hvalues).lines] at hnext
    cases hnext
  · intro hstraight values hvalues
    have hvalue := reading _ hvalues
    rw [← htree hstraight] at hvalue
    obtain ⟨position, items, hn, hitems⟩ := exists_items_of_isValueOf hvalue
    refine ⟨⟨position, items, ?_, hitems⟩, hlines.trans (hends.behind hstraight)⟩
    rw [scan_eq_of_nodeAt hnode, hn]

theorem exists_of_isOk {ε β : Type} {x : Except ε β} (h : x.isOk = true) : ∃ b, x = .ok b := by
  cases x with
  | ok b => exact ⟨b, rfl⟩
  | error e => cases h

/-- Of two lines below a key the second may be less deep than the first, but then
the outline is not complete. -/
theorem complete_iff_hosts :
    (∀ values,
      Yaml.Value.read "- hosts:\n    all\n    more\n  tasks: []\n" = .ok (.sequence values) →
        Complete "- hosts:\n    all\n    more\n  tasks: []\n" values) ∧
    ¬∀ values,
      Yaml.Value.read "- hosts:\n    all\n   more\n  tasks: []\n" = .ok (.sequence values) →
        Complete "- hosts:\n    all\n   more\n  tasks: []\n" values := by
  let tree (course : Course) : Outline.Tree Course :=
    .sequence [.mapping [("hosts".toList, .leaf course), ("tasks".toList, .leaf .straight)]]
  let blocks (m : Nat) : List BlockLine :=
    [⟨0, "- hosts:".toList⟩, ⟨4, "all".toList⟩, ⟨m, "more".toList⟩, ⟨2, "tasks: []".toList⟩]
  have rendered : ∀ (m : Nat) (course : Course), 2 < m → (course = .straight ↔ 4 ≤ m) →
      Rendered blockWriting (tree course) 0 (blocks m) := by
    intro m course hm hcourse
    have hlines : GoOn 2 [⟨m, "more".toList⟩] := by
      intro b hb
      rw [List.mem_singleton.mp hb]
      exact ⟨hm, ⟨'m', "ore".toList, rfl, by decide, by decide⟩,
        ⟨"mor".toList, 'e', rfl, by decide⟩⟩
    have hword : isWord "all".toList = true := by decide
    have hall : Tagged true "all".toList [⟨m, "more".toList⟩] :=
      ⟨⟨[], "all".toList, .nil, .plain (isPlain_of_isWord hword) .nothing, rfl⟩,
        ⟨"al".toList, 'l', rfl, by decide⟩⟩
    have hhosts : blockWriting.below course 2 4 "all".toList [⟨m, "more".toList⟩] :=
      ⟨true, hall, hlines, by simpa using hcourse⟩
    have hempty : Tagged false "[]".toList [] :=
      ⟨⟨[], "[]".toList, .nil, .flow (.inr rfl) (.stop (by decide)), rfl⟩,
        ⟨['['], ']', rfl, by decide⟩⟩
    have htasks : blockWriting.inline .straight 2 "[]".toList [] :=
      ⟨rfl, ⟨false, hempty⟩, by simp [GoOn]⟩
    have hkey : ∀ key : List Char, isName key = true → blockWriting.key key (key ++ []) :=
      fun key h => .plain (isPlainKey_of_isName h) 0
    have hplay := RenderedEntries.cons (.deeper (hkey "hosts".toList (by decide)) (.note .nothing)
        (.leaf (by decide) hhosts))
      (.cons (.leaf (g := 0) (hkey "tasks".toList (by decide)) htasks) .nil)
    have hitem := RenderedItem.compact (k := 0) (g := 0) (.mapping (List.cons_ne_nil _ _) hplay)
    exact .sequence (List.cons_ne_nil _ _) (.cons hitem .nil)
  have hblanks : ([] : List Char).all isBlank = true := rfl
  constructor
  · have document : Document (blocks 4)
        (splitLines "- hosts:\n    all\n    more\n  tasks: []\n".toList) :=
      .block hblanks (.block hblanks (.block hblanks (.block hblanks .nil)))
    have hread : (Yaml.Value.read "- hosts:\n    all\n    more\n  tasks: []\n").toOption.all
        (isValueOf · (tree .straight)) = true := by decide +kernel
    have hparse : (parse "site.yml" "- hosts:\n    all\n    more\n  tasks: []\n").isOk = true := by
      decide +kernel
    obtain ⟨playbook, accepted⟩ := exists_of_isOk hparse
    refine (complete_iff accepted (rendered 4 .straight (by decide) (by decide)) document ?_).mpr ?_
    · intro value hvalue
      rw [hvalue] at hread
      exact hread
    · simp [tree, Tree.All, AllItems, AllEntries, AllEntry]
  · have document : Document (blocks 3)
        (splitLines "- hosts:\n    all\n   more\n  tasks: []\n".toList) :=
      .block hblanks (.block hblanks (.block hblanks (.block hblanks .nil)))
    have hread : (Yaml.Value.read "- hosts:\n    all\n   more\n  tasks: []\n").toOption.all
        (isValueOf · (tree .shallow)) = true := by decide +kernel
    have hparse : (parse "site.yml" "- hosts:\n    all\n   more\n  tasks: []\n").isOk = true := by
      decide +kernel
    obtain ⟨playbook, accepted⟩ := exists_of_isOk hparse
    refine mt
      (complete_iff accepted (rendered 3 .shallow (by decide) (by decide)) document ?_).mp ?_
    · intro value hvalue
      rw [hvalue] at hread
      exact hread
    · simp [tree, Tree.All, AllItems, AllEntries, AllEntry]

end Playbook

end PlaybookStyle
