/-
Outlines with one entry edited.

No two entries of an outline stand at one place (`scan_alone`). So the edit of the entry at
a place leaves every item and entry of a list as it is but the one that holds the entry.
-/

import PlaybookStyle.Proofs.Outline.Rewritten

namespace PlaybookStyle.Outline

open Text

/-! ### Edits -/

/-- No other of some entries stands at the place of an entry. -/
structure Entry.Alone (e : Entry Node) (entries : List (Entry Node)) : Prop where
  nodup : entries.Nodup
  only : ∀ other ∈ entries, other.position = e.position → other = e

theorem scan_alone (source : List Char) {e : Entry Node}
    (he : e ∈ (Outline.scan source).root.allEntries) :
    e.Alone (Outline.scan source).root.allEntries := by
  have lines : ((Outline.scan source).root.allEntries.map (·.position.line)).Nodup :=
    (scan_openings source).lines.imp fun h => Nat.ne_of_lt h
  refine ⟨lines.of_map, ?_⟩
  exact fun other hother same => (scan_openings source).eq_of_line hother he (congrArg Position.line same)

/-- What is in two lists that make up one without repetitions is in one list. -/
theorem eq_of_mem_flatMap {α β : Type} {list : List α} {f : α → List β} (h : (list.flatMap f).Nodup)
    {a b : α} (ha : a ∈ list) (hb : b ∈ list) {x : β} (hx : x ∈ f a) (hx' : x ∈ f b) : a = b := by
  by_contra hne
  have : Std.Symm (Function.onFun List.Disjoint f) := ⟨fun _ _ h => List.disjoint_symm h⟩
  exact (List.nodup_flatMap.mp h).2.forall ha hb hne hx hx'

theorem Entry.sublist_covered (entries : List (Entry Node)) :
    entries.Sublist (entries.flatMap Entry.covered) := by
  induction entries with
  | nil => exact .slnil
  | cons entry rest ih =>
    exact (ih.trans (List.sublist_append_right entry.value.allEntries _)).cons_cons entry

variable {e : Entry Node} {f : Entry Node → Entry Node}

@[simp] theorem Node.scalar?_edit (place : Position) (f : Entry Node → Entry Node) (n : Node) :
    (n.edit place f).scalar? = n.scalar? := by
  cases n <;> rw [Node.edit] <;> rfl

@[simp] theorem Node.entries?_edit (place : Position) (f : Entry Node → Entry Node) (n : Node) :
    (n.edit place f).entries? = n.entries?.map (List.map (entryEdit place f)) := by
  cases n with
  | mapping position entries =>
    rw [Node.edit, entriesEdit_eq_map]
    rfl
  | _ => rw [Node.edit]; rfl

namespace Entry.Alone

theorem of_item {items : List (Item Node)}
    (h : e.Alone (items.flatMap fun item => item.value.allEntries)) {item : Item Node}
    (hitem : item ∈ items) : e.Alone item.value.allEntries where
  nodup := (List.nodup_flatMap.mp h.nodup).1 item hitem
  only other hother := h.only other (List.mem_flatMap.mpr ⟨item, hitem, hother⟩)

theorem of_entry {entries : List (Entry Node)} (h : e.Alone (entries.flatMap Entry.covered))
    {entry : Entry Node} (hentry : entry ∈ entries) : e.Alone entry.value.allEntries where
  nodup := (List.nodup_cons.mp ((List.nodup_flatMap.mp h.nodup).1 entry hentry)).2
  only other hother :=
    h.only other (List.mem_flatMap.mpr ⟨entry, hentry, List.mem_cons_of_mem _ hother⟩)

/-- Other items than the one with the entry stay. -/
theorem itemEdit_eq_self {items : List (Item Node)}
    (h : e.Alone (items.flatMap fun item => item.value.allEntries)) {holder item : Item Node}
    (hholder : holder ∈ items) (he : e ∈ holder.value.allEntries) (hitem : item ∈ items)
    (ne : item ≠ holder) : itemEdit e.position f item = item := by
  rw [itemEdit_eq, Node.edit_of_forall_ne]
  intro other hother same
  obtain rfl := (h.of_item hitem).only other hother same
  exact ne (eq_of_mem_flatMap h.nodup hitem hholder hother he)

/-- Other entries than the one with the entry stay. -/
theorem entryEdit_eq_self {entries : List (Entry Node)} (h : e.Alone (entries.flatMap Entry.covered))
    {holder entry : Entry Node} (hholder : holder ∈ entries) (he : e ∈ holder.covered)
    (hentry : entry ∈ entries) (ne : entry ≠ holder) : entryEdit e.position f entry = entry := by
  have hoff : ∀ other ∈ entry.covered, other.position ≠ e.position := by
    intro other hother same
    obtain rfl := h.only other (List.mem_flatMap.mpr ⟨entry, hentry, hother⟩) same
    exact ne (eq_of_mem_flatMap h.nodup hentry hholder hother he)
  rw [entryEdit_off (hoff entry List.mem_cons_self),
    Node.edit_of_forall_ne fun other hother => hoff other (List.mem_cons_of_mem _ hother)]

/-- An entry that holds another stands elsewhere. -/
theorem position_ne {entries : List (Entry Node)} (h : e.Alone (entries.flatMap Entry.covered))
    {holder : Entry Node} (hholder : holder ∈ entries) (he : e ∈ holder.value.allEntries)
    {entry : Entry Node} (hentry : entry ∈ entries) : entry.position ≠ e.position := by
  intro same
  have hself : entry ∈ entry.covered := List.mem_cons_self
  obtain rfl := h.only entry (List.mem_flatMap.mpr ⟨entry, hentry, hself⟩) same
  obtain rfl := eq_of_mem_flatMap h.nodup hentry hholder hself (List.mem_cons_of_mem _ he)
  exact (List.nodup_cons.mp ((List.nodup_flatMap.mp h.nodup).1 entry hentry)).1 he

/-- The edited entry is in the edited node. -/
theorem mem_allEntries_edit {n : Node} (h : e.Alone n.allEntries) (he : e ∈ n.allEntries) :
    f e ∈ (n.edit e.position f).allEntries := by
  induction n using Node.allEntries.induct with
  | case1 position entries ih =>
    rw [Node.allEntries_mapping] at he h
    rw [Node.edit, entriesEdit_eq_map, Node.allEntries_mapping, List.flatMap_map]
    obtain ⟨holder, hholder, he⟩ := List.mem_flatMap.mp he
    refine List.mem_flatMap.mpr ⟨holder, hholder, ?_⟩
    rcases List.mem_cons.mp he with rfl | he
    · rw [entryEdit_at rfl]
      exact List.mem_cons_self
    · rw [entryEdit_off (h.position_ne hholder he hholder)]
      exact List.mem_cons_of_mem _ (ih holder hholder (h.of_entry hholder) he)
  | case2 position items ih =>
    rw [Node.allEntries_sequence] at he h
    rw [Node.edit, itemsEdit_eq_map, Node.allEntries_sequence, List.flatMap_map]
    obtain ⟨holder, hholder, he⟩ := List.mem_flatMap.mp he
    refine List.mem_flatMap.mpr ⟨holder, hholder, ?_⟩
    rw [itemEdit_eq]
    exact ih holder hholder (h.of_item hholder) he
  | case3 s =>
    rw [Node.allEntries_scalar] at he
    cases he
  | case4 =>
    rw [Node.allEntries] at he
    cases he

end Entry.Alone

/-! ### The line of an entry -/

/-- The line of an entry has content. -/
theorem content_at {source : List Char} {e : Entry Node}
    (he : e ∈ (Outline.scan source).root.allEntries) {above below : List (List Char)}
    {line : List Char} (lines : splitLines source = above ++ line :: below)
    (number : above.length + 1 = e.position.line) : isAbsent (trim line) = false := by
  obtain ⟨top, htop, inner, split, leads, -, hplace, -⟩ := (scan_openings source).opened e he
  have htopNumber : top.number = above.length + 1 := by
    rw [number, ← leads.number_eq, hplace]
    rfl
  have hline := ofLine?_of_mem_ofText htop lines htopNumber
  rw [← trim_trimEndOf_returns]
  exact isAbsent_trim_of_ofLine? hline

end PlaybookStyle.Outline
