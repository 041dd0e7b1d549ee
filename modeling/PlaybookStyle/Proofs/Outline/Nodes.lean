/-
The entries and the places of a node.

All entries of a node are those of its mappings, each before the ones below it
(`Node.allEntries`). A property of places holds of a node if it holds of the place of every item,
entry and scalar in it (`Node.Everywhere`), and so of the place of each entry
(`Node.Everywhere.of_mem_allEntries`).
-/

import PlaybookStyle.Outline.Basic

namespace PlaybookStyle.Outline

/-! ### Items and entries -/

/-- The items of a block sequence. -/
def Node.items : Node → List (Item Node)
  | .sequence _ items => items
  | .mapping _ _ | .scalar _ | .empty => []

theorem sizeOf_entry_value_lt {entry : Entry Node} {entries : List (Entry Node)}
    (h : entry ∈ entries) (position : Position) :
    sizeOf entry.value < sizeOf (Node.mapping position entries) := by
  have hentry := List.sizeOf_lt_of_mem h
  have hvalue : sizeOf entry.value < sizeOf entry := by
    cases entry
    simp only [Entry.mk.sizeOf_spec]
    omega
  simp only [Node.mapping.sizeOf_spec]
  omega

theorem sizeOf_item_value_lt {item : Item Node} {items : List (Item Node)} (h : item ∈ items)
    (position : Position) : sizeOf item.value < sizeOf (Node.sequence position items) := by
  have hitem := List.sizeOf_lt_of_mem h
  have hvalue : sizeOf item.value < sizeOf item := by
    cases item
    simp only [Item.mk.sizeOf_spec]
    omega
  simp only [Node.sequence.sizeOf_spec]
  omega

/-- The entries of all mappings in a node, each before those below it. -/
def Node.allEntries : Node → List (Entry Node)
  | .mapping _ entries => entries.flatMap fun entry => entry :: entry.value.allEntries
  | .sequence _ items => items.flatMap fun item => item.value.allEntries
  | .scalar _ => []
  | .empty => []
termination_by n => n
decreasing_by
  · exact sizeOf_entry_value_lt ‹_› _
  · exact sizeOf_item_value_lt ‹_› _

/-- An entry and all below it. -/
def Entry.covered (entry : Entry Node) : List (Entry Node) := entry :: entry.value.allEntries

namespace Node

@[simp] theorem allEntries_mapping (position : Position) (entries : List (Entry Node)) :
    (mapping position entries).allEntries = entries.flatMap Entry.covered := by
  rw [allEntries]
  rfl

@[simp] theorem allEntries_sequence (position : Position) (items : List (Item Node)) :
    (sequence position items).allEntries = items.flatMap fun item => item.value.allEntries := by
  rw [allEntries]

@[simp] theorem allEntries_scalar (s : Scalar) : (scalar s).allEntries = [] := by rw [allEntries]

@[simp] theorem allEntries_empty : empty.allEntries = [] := by rw [allEntries]

theorem allEntries_of_entries? {n : Node} {entries : List (Entry Node)}
    (h : n.entries? = some entries) : n.allEntries = entries.flatMap Entry.covered := by
  cases n with
  | mapping position list =>
    obtain rfl := Option.some.inj h
    exact allEntries_mapping position list
  | sequence => cases h
  | scalar => cases h
  | empty => cases h

theorem allEntries_of_scalar? {n : Node} (h : n.scalar?.isSome = true) : n.allEntries = [] := by
  cases n with
  | scalar s => exact allEntries_scalar s
  | mapping => cases h
  | sequence => cases h
  | empty => cases h

/-- The keys right below the dashes of a sequence. -/
theorem mem_allEntries_of_items {n : Node} {e : Entry Node}
    (h : e ∈ n.items.flatMap fun item => item.value.entries?.getD []) : e ∈ n.allEntries := by
  obtain ⟨item, hitem, he⟩ := List.mem_flatMap.mp h
  cases n with
  | sequence position items =>
    rw [allEntries_sequence]
    refine List.mem_flatMap.mpr ⟨item, hitem, ?_⟩
    cases hentries : item.value.entries? with
    | none =>
      rw [hentries] at he
      cases he
    | some entries =>
      rw [hentries] at he
      rw [allEntries_of_entries? hentries]
      exact List.mem_flatMap.mpr ⟨e, he, List.mem_cons_self⟩
  | mapping | scalar | empty => cases hitem

/-- Entries under an entry of a node are entries of the node. -/
theorem mem_allEntries_of_value {n : Node} {e inner : Entry Node} (he : e ∈ n.allEntries)
    (hinner : inner ∈ e.value.allEntries) : inner ∈ n.allEntries := by
  induction n using allEntries.induct with
  | case1 position entries ih =>
    rw [allEntries_mapping] at he ⊢
    obtain ⟨outer, houter, he⟩ := List.mem_flatMap.mp he
    refine List.mem_flatMap_of_mem houter (List.mem_cons_of_mem _ ?_)
    rcases List.mem_cons.mp he with rfl | he
    · exact hinner
    · exact ih outer houter he
  | case2 position items ih =>
    rw [allEntries_sequence] at he ⊢
    obtain ⟨item, hitem, he⟩ := List.mem_flatMap.mp he
    exact List.mem_flatMap_of_mem hitem (ih item hitem he)
  | case3 s => simp at he
  | case4 => simp at he

end Node

/-! ### Places -/

/-- A property holds of every position in a node. -/
inductive Node.Everywhere (P : Position → Prop) : Node → Prop
  | empty : Everywhere P .empty
  | scalar {s : Scalar} (h : P s.position) : Everywhere P (.scalar s)
  | sequence {position : Position} {items : List (Item Node)}
      (positions : ∀ item ∈ items, P item.position)
      (values : ∀ item ∈ items, Everywhere P item.value) : Everywhere P (.sequence position items)
  | mapping {position : Position} {entries : List (Entry Node)}
      (positions : ∀ entry ∈ entries, P entry.position)
      (values : ∀ entry ∈ entries, Everywhere P entry.value) :
      Everywhere P (.mapping position entries)

theorem Node.Everywhere.of_entries? {P : Position → Prop} {n : Node}
    {entries : List (Entry Node)} (h : n.Everywhere P)
    (hentries : n.entries? = some entries) :
    (∀ entry ∈ entries, P entry.position) ∧ ∀ entry ∈ entries, entry.value.Everywhere P := by
  cases h with
  | mapping positions values =>
    obtain rfl := Option.some.inj hentries
    exact ⟨positions, values⟩
  | empty => cases hentries
  | scalar => cases hentries
  | sequence => cases hentries

theorem Node.Everywhere.of_scalar? {P : Position → Prop} {n : Node}
    {s : Scalar} (h : n.Everywhere P) (hscalar : n.scalar? = some s) : P s.position := by
  cases h with
  | scalar h =>
    obtain rfl := Option.some.inj hscalar
    exact h
  | empty => cases hscalar
  | mapping => cases hscalar
  | sequence => cases hscalar

theorem Node.Everywhere.of_mem_allEntries {P : Position → Prop} {n : Node} (h : n.Everywhere P)
    {e : Entry Node} (he : e ∈ n.allEntries) : P e.position := by
  induction h with
  | empty => simp at he
  | scalar => simp at he
  | sequence positions _ ih =>
    rw [Node.allEntries_sequence] at he
    obtain ⟨item, hitem, he⟩ := List.mem_flatMap.mp he
    exact ih item hitem he
  | mapping positions _ ih =>
    rw [Node.allEntries_mapping] at he
    obtain ⟨entry, hentry, he⟩ := List.mem_flatMap.mp he
    rcases List.mem_cons.mp he with rfl | he
    · exact positions e hentry
    · exact ih entry hentry he

end PlaybookStyle.Outline
