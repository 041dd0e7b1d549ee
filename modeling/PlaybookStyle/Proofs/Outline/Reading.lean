/-
How an outline is read, as rules.

The scanner is a set of functions that recurse by weight. Here the same reading
is a set of rules, one for each way in which a node, the items of a sequence, the
entries of a mapping or a value can be found at a cursor, so that a fact about
all outlines is proved by induction on a derivation, rule by rule. The rules
derive what the scanner finds (`node_at`), and nothing else (`NodeAt.eq`).
-/

import PlaybookStyle.Outline.Scan

namespace PlaybookStyle.Outline

open Text

/-! ### The rules -/

mutual

/-- The node read at a cursor, and the cursor behind it. -/
inductive NodeAt : Cursor → Node → Cursor → Prop
  | nothing {c : Cursor} (h : c.lines = []) : NodeAt c .empty c
  | sequence {c after : Cursor} {line : LogicalLine} {rest : List LogicalLine}
      {list : List (Item Node)} (h : c.lines = line :: rest) (hitem : isItem line.text = true)
      (found : ItemsAt line.indent c list after) :
      NodeAt c (.sequence ⟨line.number, line.indent + 1⟩ list) after
  | mapping {c after : Cursor} {line : LogicalLine} {rest : List LogicalLine} {split : KeySplit}
      {list : List (Entry Node)} (h : c.lines = line :: rest) (hitem : isItem line.text = false)
      (hkey : splitKey line.text = some split) (found : EntriesAt line.indent c list after) :
      NodeAt c (.mapping ⟨line.number, line.indent + 1⟩ list) after
  | value {c after : Cursor} {line : LogicalLine} {rest : List LogicalLine} {n : Node}
      (h : c.lines = line :: rest) (hitem : isItem line.text = false)
      (hkey : splitKey line.text = none)
      (found : ValueAt line.text line.number (line.indent + 1) (line.indent - 1) (c.pass line rest)
        n after) : NodeAt c n after

/-- The items read at an indentation. -/
inductive ItemsAt : Nat → Cursor → List (Item Node) → Cursor → Prop
  | stop {indent : Nat} {c : Cursor}
      (h : ∀ line ∈ c.lines.head?, ¬(line.indent = indent ∧ isItem line.text = true)) :
      ItemsAt indent c [] c
  | item {indent : Nat} {c mid after : Cursor} {line : LogicalLine} {rest : List LogicalLine}
      {n : Node} {list : List (Item Node)} (h : c.lines = line :: rest)
      (hindent : line.indent = indent) (hitem : isItem line.text = true)
      (first : ItemAt c line rest n mid) (more : ItemsAt indent mid list after) :
      ItemsAt indent c (⟨⟨line.number, indent + 1⟩, n, mid.lastLine⟩ :: list) after

/-- The node of the item that a line opens. -/
inductive ItemAt : Cursor → LogicalLine → List LogicalLine → Node → Cursor → Prop
  | deeper {c after : Cursor} {line next : LogicalLine} {rest : List LogicalLine} {n : Node}
      (habsent : isAbsent line.item = true) (hnext : rest.head? = some next)
      (hdeeper : line.indent < next.indent) (found : NodeAt (c.pass line rest) n after) :
      ItemAt c line rest n after
  | empty {c : Cursor} {line : LogicalLine} {rest : List LogicalLine}
      (habsent : isAbsent line.item = true)
      (hnext : ∀ next ∈ rest.head?, next.indent ≤ line.indent) :
      ItemAt c line rest .empty (c.pass line rest)
  | behind {c after : Cursor} {line : LogicalLine} {rest : List LogicalLine} {n : Node}
      (hpresent : isAbsent line.item = false)
      (hcollection : (isItem line.item || (splitKey line.item).isSome) = true)
      (found : NodeAt (c.enter line rest) n after) : ItemAt c line rest n after
  | value {c after : Cursor} {line : LogicalLine} {rest : List LogicalLine} {n : Node}
      (hpresent : isAbsent line.item = false)
      (hcollection : (isItem line.item || (splitKey line.item).isSome) = false)
      (found : ValueAt line.item line.number (line.behindDash.indent + 1) line.indent
        (c.pass line rest) n after) : ItemAt c line rest n after

/-- The entries read at an indentation. -/
inductive EntriesAt : Nat → Cursor → List (Entry Node) → Cursor → Prop
  | stop {indent : Nat} {c : Cursor}
      (h : ∀ line ∈ c.lines.head?, ¬(line.indent = indent ∧ (splitKey line.text).isSome = true)) :
      EntriesAt indent c [] c
  | entry {indent : Nat} {c mid after : Cursor} {line : LogicalLine} {rest : List LogicalLine}
      {split : KeySplit} {n : Node} {list : List (Entry Node)} (h : c.lines = line :: rest)
      (hindent : line.indent = indent) (hkey : splitKey line.text = some split)
      (first : EntryAt c line rest split n mid) (more : EntriesAt indent mid list after) :
      EntriesAt indent c
        (⟨String.ofList split.key, ⟨line.number, indent + 1⟩, split.spacing, n, mid.lastLine⟩ ::
          list) after

/-- The node of the entry that a line opens. -/
inductive EntryAt : Cursor → LogicalLine → List LogicalLine → KeySplit → Node → Cursor → Prop
  | deeper {c after : Cursor} {line next : LogicalLine} {rest : List LogicalLine}
      {split : KeySplit} {n : Node} (habsent : isAbsent split.value = true)
      (hnext : rest.head? = some next) (hdeeper : line.indent < next.indent)
      (found : NodeAt (c.pass line rest) n after) : EntryAt c line rest split n after
  | items {c after : Cursor} {line next : LogicalLine} {rest : List LogicalLine}
      {split : KeySplit} {list : List (Item Node)} (habsent : isAbsent split.value = true)
      (hnext : rest.head? = some next) (hindent : next.indent = line.indent)
      (hitem : isItem next.text = true) (found : ItemsAt line.indent (c.pass line rest) list after) :
      EntryAt c line rest split (.sequence ⟨next.number, line.indent + 1⟩ list) after
  | empty {c : Cursor} {line : LogicalLine} {rest : List LogicalLine} {split : KeySplit}
      (habsent : isAbsent split.value = true)
      (hnext : ∀ next ∈ rest.head?, next.indent ≤ line.indent ∧
        ¬(next.indent = line.indent ∧ isItem next.text = true)) :
      EntryAt c line rest split .empty (c.pass line rest)
  | value {c after : Cursor} {line : LogicalLine} {rest : List LogicalLine} {split : KeySplit}
      {n : Node} (hpresent : isAbsent split.value = false)
      (found : ValueAt split.value line.number (line.indent + split.colon + byteLength split.gap + 2)
        line.indent (c.pass line rest) n after) : EntryAt c line rest split n after

/-- The value whose text starts at a place of a line that is passed. -/
inductive ValueAt : List Char → Nat → Nat → Nat → Cursor → Node → Cursor → Prop
  | deeper {text : List Char} {line column parent : Nat} {c after : Cursor} {next : LogicalLine}
      {n : Node} (habsent : isAbsent (skipProperties none column text).2.2 = true)
      (hnext : c.lines.head? = some next) (hdeeper : parent < next.indent)
      (found : NodeAt c n after) : ValueAt text line column parent c n after
  | empty {text : List Char} {line column parent : Nat} {c : Cursor}
      (habsent : isAbsent (skipProperties none column text).2.2 = true)
      (hnext : ∀ next ∈ c.lines.head?, next.indent ≤ parent) :
      ValueAt text line column parent c .empty c
  | scalar {text rest : List Char} {line column parent start : Nat} {c : Cursor}
      {tag? : Option (List Char)} (hskip : skipProperties none column text = (tag?, start, rest))
      (hpresent : isAbsent rest = false) :
      ValueAt text line column parent c (scalarAt tag? rest ⟨line, start⟩ parent c).1.1
        (scalarAt tag? rest ⟨line, start⟩ parent c).1.2

end

/-! ### One step of the scanner -/

/-- No line follows that is deeper. -/
theorem not_any_deeper_iff {indent : Nat} {next? : Option LogicalLine} :
    ¬next?.any (indent < ·.indent) = true ↔ ∀ next ∈ next?, next.indent ≤ indent := by
  cases next? <;> simp

section Steps

variable {c : Cursor} {line : LogicalLine} {rest : List LogicalLine}

theorem node_nil (h : c.lines = []) : (node c).1 = (.empty, c) := by
  rw [node]
  split
  · rfl
  · rename_i hlines
    cases h.symm.trans hlines

theorem node_cons (h : c.lines = line :: rest) :
    (node c).1 =
      if isItem line.text then
        (.sequence ⟨line.number, line.indent + 1⟩ (items line.indent c).1.1,
          (items line.indent c).1.2)
      else if (splitKey line.text).isSome then
        (.mapping ⟨line.number, line.indent + 1⟩ (entries line.indent c).1.1,
          (entries line.indent c).1.2)
      else (value line.text line.number (line.indent + 1) (line.indent - 1) (c.pass line rest)).1 := by
  rw [node]
  split
  · rename_i hlines
    cases h.symm.trans hlines
  · rename_i hlines
    obtain ⟨rfl, rfl⟩ := List.cons.inj (hlines.symm.trans h)
    split
    · rfl
    · split <;> rfl

theorem items_stop {indent : Nat}
    (h : ∀ line ∈ c.lines.head?, ¬(line.indent = indent ∧ isItem line.text = true)) :
    (items indent c).1 = ([], c) := by
  rw [items]
  split
  · rfl
  · rename_i line rest hlines
    rw [dif_neg (h line (by simp [hlines]))]

theorem items_cons {indent : Nat} (h : c.lines = line :: rest) (hindent : line.indent = indent)
    (hitem : isItem line.text = true) :
    (items indent c).1 =
      (⟨⟨line.number, indent + 1⟩, (itemValue line rest c h hitem).1.1,
          (itemValue line rest c h hitem).1.2.lastLine⟩ ::
        (items indent (itemValue line rest c h hitem).1.2).1.1,
      (items indent (itemValue line rest c h hitem).1.2).1.2) := by
  rw [items]
  split
  · rename_i hlines
    cases h.symm.trans hlines
  · rename_i hlines
    obtain ⟨rfl, rfl⟩ := List.cons.inj (hlines.symm.trans h)
    rw [dif_pos ⟨hindent, hitem⟩]

theorem entries_stop {indent : Nat}
    (h : ∀ line ∈ c.lines.head?, ¬(line.indent = indent ∧ (splitKey line.text).isSome = true)) :
    (entries indent c).1 = ([], c) := by
  rw [entries]
  split
  · rfl
  · rename_i line rest hlines
    have h := h line (by simp [hlines])
    split
    · rename_i hindent
      split
      · rfl
      · rename_i hkey
        exact absurd ⟨hindent, by simp [hkey]⟩ h
    · rfl

theorem entries_cons {indent : Nat} {split : KeySplit} (h : c.lines = line :: rest)
    (hindent : line.indent = indent) (hkey : splitKey line.text = some split) :
    (entries indent c).1 =
      (⟨String.ofList split.key, ⟨line.number, indent + 1⟩, split.spacing,
          (entryValue line rest split c h).1.1, (entryValue line rest split c h).1.2.lastLine⟩ ::
        (entries indent (entryValue line rest split c h).1.2).1.1,
      (entries indent (entryValue line rest split c h).1.2).1.2) := by
  rw [entries]
  split
  · rename_i hlines
    cases h.symm.trans hlines
  · rename_i hlines
    obtain ⟨rfl, rfl⟩ := List.cons.inj (hlines.symm.trans h)
    rw [if_pos hindent]
    split
    · rename_i hnone
      cases hkey.symm.trans hnone
    · rename_i hsome
      obtain rfl := Option.some.inj (hkey.symm.trans hsome)
      rfl

end Steps

/-! ### The rules derive what is scanned -/

mutual

theorem node_at (c : Cursor) : NodeAt c (node c).1.1 (node c).1.2 := by
  cases h : c.lines with
  | nil =>
    rw [node_nil h]
    exact .nothing h
  | cons line rest =>
    have hlt := Cursor.weight_pass_lt h
    rw [node_cons h]
    split
    · rename_i hitem
      exact .sequence h hitem (items_at line.indent c)
    · rename_i hitem
      have hitem : isItem line.text = false := Bool.eq_false_iff.mpr hitem
      split
      · rename_i hkey
        obtain ⟨split, hsplit⟩ := Option.isSome_iff_exists.mp hkey
        exact .mapping h hitem hsplit (entries_at line.indent c)
      · rename_i hkey
        exact .value h hitem (Option.not_isSome_iff_eq_none.mp hkey) (value_at _ _ _ _ _)
termination_by 4 * c.weight + 2
decreasing_by
  all_goals omega

theorem items_at (indent : Nat) (c : Cursor) :
    ItemsAt indent c (items indent c).1.1 (items indent c).1.2 := by
  cases h : c.lines with
  | nil =>
    have hstop : ∀ line ∈ c.lines.head?, ¬(line.indent = indent ∧ isItem line.text = true) := by
      simp [h]
    rw [items_stop hstop]
    exact .stop hstop
  | cons line rest =>
    by_cases hitem : line.indent = indent ∧ isItem line.text = true
    · have hlt := (itemValue line rest c h hitem.2).2
      rw [items_cons h hitem.1 hitem.2]
      exact .item h hitem.1 hitem.2 (itemValue_at line rest c h hitem.2) (items_at indent _)
    · have hstop : ∀ line ∈ c.lines.head?, ¬(line.indent = indent ∧ isItem line.text = true) := by
        simpa [h] using hitem
      rw [items_stop hstop]
      exact .stop hstop
termination_by 4 * c.weight + 1
decreasing_by
  all_goals omega

theorem itemValue_at (line : LogicalLine) (rest : List LogicalLine) (c : Cursor)
    (h : c.lines = line :: rest) (hitem : isItem line.text) :
    ItemAt c line rest (itemValue line rest c h hitem).1.1 (itemValue line rest c h hitem).1.2 := by
  rw [itemValue]
  split
  · rename_i habsent
    split
    · rename_i hnext
      obtain ⟨next, hnext, hdeeper⟩ := (Option.any_eq_true _ _).mp hnext
      exact .deeper habsent hnext (by simpa using hdeeper) (node_at _)
    · rename_i hnext
      exact .empty habsent (not_any_deeper_iff.mp hnext)
  · rename_i hpresent
    have hpresent : isAbsent line.item = false := Bool.eq_false_iff.mpr hpresent
    split
    · rename_i hcollection
      exact .behind hpresent hcollection (node_at _)
    · rename_i hcollection
      exact .value hpresent (Bool.eq_false_iff.mpr hcollection) (value_at _ _ _ _ _)
termination_by 4 * c.weight + 0
decreasing_by
  · have hlt := Cursor.weight_pass_lt h
    omega
  · have hlt := Cursor.weight_enter_lt h hitem
    omega
  · have hlt := Cursor.weight_pass_lt h
    omega

theorem entries_at (indent : Nat) (c : Cursor) :
    EntriesAt indent c (entries indent c).1.1 (entries indent c).1.2 := by
  by_cases hentry : ∃ line rest split, c.lines = line :: rest ∧ line.indent = indent ∧
      splitKey line.text = some split
  · obtain ⟨line, rest, split, h, hindent, hkey⟩ := hentry
    have hlt := (entryValue line rest split c h).2
    rw [entries_cons h hindent hkey]
    exact .entry h hindent hkey (entryValue_at line rest split c h) (entries_at indent _)
  · have hstop : ∀ line ∈ c.lines.head?,
        ¬(line.indent = indent ∧ (splitKey line.text).isSome = true) := by
      rintro line hline ⟨hindent, hkey⟩
      obtain ⟨split, hsplit⟩ := Option.isSome_iff_exists.mp hkey
      obtain ⟨rest, hrest⟩ := List.head?_eq_some_iff.mp hline
      exact hentry ⟨line, rest, split, hrest, hindent, hsplit⟩
    rw [entries_stop hstop]
    exact .stop hstop
termination_by 4 * c.weight + 1
decreasing_by
  all_goals omega

theorem entryValue_at (line : LogicalLine) (rest : List LogicalLine) (split : KeySplit)
    (c : Cursor) (h : c.lines = line :: rest) :
    EntryAt c line rest split (entryValue line rest split c h).1.1
      (entryValue line rest split c h).1.2 := by
  rw [entryValue]
  split
  · rename_i habsent
    split
    · rename_i hnext
      exact .empty habsent (by simp [hnext])
    · rename_i next hnext
      split
      · rename_i hdeeper
        exact .deeper habsent hnext hdeeper (node_at _)
      · rename_i hdeeper
        split
        · rename_i hitem
          exact .items habsent hnext hitem.1 hitem.2 (items_at _ _)
        · rename_i hitem
          refine .empty habsent ?_
          rw [hnext]
          rintro _ ⟨⟩
          exact ⟨Nat.le_of_not_lt hdeeper, hitem⟩
  · rename_i hpresent
    exact .value (Bool.eq_false_iff.mpr hpresent) (value_at _ _ _ _ _)
termination_by 4 * c.weight + 0
decreasing_by
  · have hlt := Cursor.weight_pass_lt h
    omega
  · have hlt := Cursor.weight_pass_lt h
    omega
  · have hlt := Cursor.weight_pass_lt h
    omega

theorem value_at (text : List Char) (line column parent : Nat) (c : Cursor) :
    ValueAt text line column parent c (value text line column parent c).1.1
      (value text line column parent c).1.2 := by
  rw [value]
  dsimp only
  split
  · rename_i habsent
    split
    · rename_i hnext
      obtain ⟨next, hnext, hdeeper⟩ := (Option.any_eq_true _ _).mp hnext
      exact .deeper habsent hnext (by simpa using hdeeper) (node_at c)
    · rename_i hnext
      exact .empty habsent (not_any_deeper_iff.mp hnext)
  · rename_i hpresent
    exact .scalar rfl (Bool.eq_false_iff.mpr hpresent)
termination_by 4 * c.weight + 3
decreasing_by omega

end

/-! ### Nothing else is derived -/

mutual

theorem NodeAt.eq {c after : Cursor} {n : Node} : NodeAt c n after → (node c).1 = (n, after)
  | .nothing h => node_nil h
  | .sequence h hitem found => by
    rw [node_cons h, if_pos hitem, found.eq]
  | .mapping h hitem hkey found => by
    rw [node_cons h, if_neg (by simp [hitem]), if_pos (by simp [hkey]), found.eq]
  | .value h hitem hkey found => by
    rw [node_cons h, if_neg (by simp [hitem]), if_neg (by simp [hkey]), found.eq]

theorem ItemsAt.eq {indent : Nat} {c after : Cursor} {list : List (Item Node)} :
    ItemsAt indent c list after → (items indent c).1 = (list, after)
  | .stop h => items_stop h
  | .item h hindent hitem first more => by
    rw [items_cons h hindent hitem, first.eq h hitem, more.eq]

theorem ItemAt.eq {c after : Cursor} {line : LogicalLine} {rest : List LogicalLine} {n : Node} :
    ItemAt c line rest n after → ∀ (h : c.lines = line :: rest) (hitem : isItem line.text = true),
      (itemValue line rest c h hitem).1 = (n, after)
  | .deeper habsent hnext hdeeper found => by
    intro h hitem
    rw [itemValue, if_pos habsent, if_pos (by simpa [hnext] using hdeeper)]
    exact found.eq
  | .empty habsent hnext => by
    intro h hitem
    rw [itemValue, if_pos habsent, if_neg (not_any_deeper_iff.mpr hnext)]
  | .behind hpresent hcollection found => by
    intro h hitem
    rw [itemValue, if_neg (by simp [hpresent]), if_pos hcollection]
    exact found.eq
  | .value hpresent hcollection found => by
    intro h hitem
    rw [itemValue, if_neg (by simp [hpresent]), if_neg (by simp [hcollection])]
    exact found.eq

theorem EntriesAt.eq {indent : Nat} {c after : Cursor} {list : List (Entry Node)} :
    EntriesAt indent c list after → (entries indent c).1 = (list, after)
  | .stop h => entries_stop h
  | .entry h hindent hkey first more => by
    rw [entries_cons h hindent hkey, first.eq h, more.eq]

theorem EntryAt.eq {c after : Cursor} {line : LogicalLine} {rest : List LogicalLine}
    {split : KeySplit} {n : Node} :
    EntryAt c line rest split n after → ∀ h : c.lines = line :: rest,
      (entryValue line rest split c h).1 = (n, after)
  | .deeper habsent hnext hdeeper found => by
    intro h
    rw [entryValue, if_pos habsent]
    simp only [hnext, if_pos hdeeper]
    exact found.eq
  | .items habsent hnext hindent hitem found => by
    intro h
    rw [entryValue, if_pos habsent]
    simp only [hnext, hindent, hitem, Nat.lt_irrefl, if_false, and_self, if_true, found.eq]
  | .empty habsent hnext => by
    intro h
    rw [entryValue, if_pos habsent]
    split
    · rfl
    · rename_i next hhead
      obtain ⟨hle, hitem⟩ := hnext next hhead
      rw [if_neg (Nat.not_lt.mpr hle), if_neg hitem]
  | .value hpresent found => by
    intro h
    rw [entryValue, if_neg (by simp [hpresent])]
    exact found.eq

theorem ValueAt.eq {text : List Char} {line column parent : Nat} {c after : Cursor} {n : Node} :
    ValueAt text line column parent c n after → (value text line column parent c).1 = (n, after)
  | .deeper habsent hnext hdeeper found => by
    rw [value]
    dsimp only
    rw [if_pos habsent, if_pos (by simpa [hnext] using hdeeper)]
    exact found.eq
  | .empty habsent hnext => by
    rw [value]
    dsimp only
    rw [if_pos habsent, if_neg (not_any_deeper_iff.mpr hnext)]
  | .scalar hskip hpresent => by
    rw [value, hskip]
    dsimp only
    rw [if_neg (by simp [hpresent])]

end

/-- The outline of a text is what is read at its first line. -/
theorem scan_eq_of_nodeAt {source : List Char} {n : Node} {after : Cursor}
    (h : NodeAt (.ofText source) n after) : Outline.scan source = ⟨n, after.verbatim⟩ := by
  simp only [Outline.scan, h.eq]

end PlaybookStyle.Outline
