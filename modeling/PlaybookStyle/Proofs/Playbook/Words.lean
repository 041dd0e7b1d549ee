/-
The words of a playbook that rules repeat as they are written.

Rules name parts by their keys and by their tokens: `Part.words`. On the walk over a playbook
each of them is the path of the file, a key of the outline or the token of a scalar there
(`words_written`); so none is longer than a line (`Written.isLine`).
-/

import PlaybookStyle.Proofs.Outline.Unbroken
import PlaybookStyle.Proofs.Playbook.Contexts
import PlaybookStyle.Proofs.Playbook.Reordering

namespace PlaybookStyle

open Text

namespace Playbook

open Outline (Node Item)

/-- The words of a part: its keys, its tokens and, of a document, the path. -/
def Part.words : Part → List String
  | .document p => [p.path]
  | .play p => p.fields.map Field.key
  | .task t => t.fields.map Field.key ++ t.module?.toList.map ModuleCall.name ++
      t.params.map EntryOf.key
  | .module m => [m.name]
  | .role _ => []
  | .inclusion i => [i.keyword, i.target.raw]
  | .entry e => [e.key]
  | .scalar s => s.raw :: if s.context = .moduleParam then s.key?.toList ++ s.module?.toList else []

/-- The word is the path, or it is in the outline: a key, or the token of a scalar. -/
inductive Written (path content : String) : String → Prop
  | path : Written path content path
  | key {e : Outline.Entry Node} (he : e ∈ (Outline.scan content.toList).root.allEntries) :
      Written path content e.key
  | token {holder last : Nat} {s : Outline.Scalar}
      (held : (Outline.scan content.toList).root.Holds holder last s) : Written path content s.raw

/-- What is written in the outline is on one line. -/
theorem Written.isLine {path content word : String} (h : Written path content word)
    (hpath : IsLine path) : IsLine word := by
  cases h with
  | path => exact hpath
  | key he => exact Outline.scan_key_isLine he
  | token held => exact (Outline.scan_scalar_isLine held).1

/-! ### The words on the walk -/

/-- The keys of the parameters are those of the mapping that the module is given. -/
theorem exists_entry_of_params {e : Outline.Entry Node} {entry : Entry}
    (h : entry ∈ ((ModuleCall.ofEntry e).params?).getD []) :
    ∃ inner ∈ e.value.allEntries, inner.key = entry.key := by
  obtain ⟨key, position, spacing, value, endLine⟩ := e
  cases value with
  | mapping place entries =>
    rw [ModuleCall.params?, ModuleCall.ofEntry] at h
    dsimp only at h
    rw [Value.ofNode, Value.mapping?, Option.getD_some, entriesOf_eq_map] at h
    obtain ⟨inner, hinner, rfl⟩ := List.mem_map.mp h
    refine ⟨inner, ?_, by rw [entryOf_eq]⟩
    rw [Outline.Node.allEntries_mapping]
    exact List.mem_flatMap_of_mem hinner List.mem_cons_self
  | sequence => simp [ModuleCall.params?, ModuleCall.ofEntry, Value.ofNode, Value.mapping?] at h
  | scalar => simp [ModuleCall.params?, ModuleCall.ofEntry, Value.mapping?] at h
  | empty => simp [ModuleCall.params?, ModuleCall.ofEntry, Value.ofNode, Value.mapping?] at h

section Walk

variable {path content : String} {playbook : Playbook} {visit : Visit}

/-- A key with a colon on the walk is one of the outline. -/
theorem exists_entry_of_colon (parsed : Playbook.parse path content = .ok playbook)
    (hvisit : visit ∈ playbook.visits) {c : Colon} (hc : visit.part.colon? = some c) :
    ∃ e ∈ (Outline.scan content.toList).root.allEntries, e.key = c.key := by
  have hmem : c ∈ colons playbook.visits := List.mem_filterMap.mpr ⟨visit, hvisit, hc⟩
  obtain ⟨e, reached, rfl⟩ := (mem_colons_visits parsed).mp hmem
  exact ⟨e, reached.mem_allEntries, rfl⟩

/-- The key of a play's field is one of its item. -/
theorem exists_entry_of_playField (parsed : Playbook.parse path content = .ok playbook) {p : Play}
    (hp : p ∈ playbook.plays) {field : Field PlayFieldKind} (hfield : field ∈ p.fields) :
    ∃ e ∈ (Outline.scan content.toList).root.allEntries, e.key = field.key := by
  obtain ⟨position, items, root, item, hitem, rfl⟩ := exists_item_of_mem_plays parsed hp
  obtain ⟨raw, hraw, rfl⟩ := List.mem_map.mp hfield
  refine ⟨raw, ?_, rfl⟩
  rw [root, Outline.Node.allEntries_sequence]
  refine List.mem_flatMap_of_mem hitem ?_
  cases hentries : item.value.entries? with
  | none =>
    rw [hentries] at hraw
    cases hraw
  | some entries =>
    rw [hentries] at hraw
    rw [Outline.Node.allEntries_of_entries? hentries]
    exact List.mem_flatMap_of_mem hraw List.mem_cons_self

/-- The key of a task's field is one of its item. -/
theorem exists_entry_of_taskField (parsed : Playbook.parse path content = .ok playbook) {t : Task}
    (ht : t ∈ playbook.tasks) {field : Field TaskFieldKind} (hfield : field ∈ t.fields) :
    ∃ e ∈ (Outline.scan content.toList).root.allEntries, e.key = field.key := by
  obtain ⟨list, inner, item, hitem, made⟩ := exists_item_of_mem_tasks parsed ht
  obtain ⟨entries, -, hentries, rfl⟩ := exists_entries_of_task made
  have hpair := List.mem_map_of_mem (f := fun field => (field.key, field.position)) hfield
  rw [(ofParts_madeFrom _ _ entries).fields] at hpair
  obtain ⟨e, he, hsame⟩ := List.mem_map.mp hpair
  refine ⟨e, mem_allEntries_of_innerList inner hitem ?_, congrArg Prod.fst hsame⟩
  rw [Outline.Node.allEntries_of_entries? hentries]
  exact List.mem_flatMap_of_mem he List.mem_cons_self

theorem task_words_written (parsed : Playbook.parse path content = .ok playbook) {t : Task}
    (ht : t ∈ playbook.tasks) : ∀ word ∈ (Part.task t).words, Written path content word := by
  intro word hword
  simp only [Part.words, List.mem_append, List.mem_map, Option.mem_toList] at hword
  rcases hword with (⟨field, hfield, rfl⟩ | ⟨call, module, rfl⟩) | ⟨entry, hentry, rfl⟩
  · obtain ⟨e, he, hkey⟩ := exists_entry_of_taskField parsed ht hfield
    exact hkey ▸ .key he
  · obtain ⟨e, he, rfl, -⟩ := exists_call_of_mem_tasks parsed ht module
    exact .key he
  · cases module : t.module? with
    | none =>
      rw [TaskOf.params, module] at hentry
      cases hentry
    | some call =>
      obtain ⟨e, he, rfl, -⟩ := exists_call_of_mem_tasks parsed ht module
      rw [TaskOf.params, module, Option.bind_some] at hentry
      obtain ⟨inner, hinner, hkey⟩ := exists_entry_of_params hentry
      exact hkey ▸ .key (Outline.Node.mem_allEntries_of_value he hinner)

theorem scalar_words_written (parsed : Playbook.parse path content = .ok playbook) {s : Scalar}
    (hvisit : visit ∈ playbook.visits) (hpart : visit.part = .scalar s) :
    ∀ word ∈ (Part.scalar s).words, Written path content word := by
  intro word hword
  rcases List.mem_cons.mp hword with rfl | hword
  · have made := visits_made parsed visit hvisit
    rw [hpart] at made
    obtain ⟨origin, key?, scope, ⟨holder, last, held⟩, rfl⟩ := made
    exact .token held
  · split at hword
    · rename_i param
      obtain ⟨t, ht, call, module, -, hs⟩ :=
        exists_call_of_moduleParam parsed (mem_scalars_of_mem_visits hvisit hpart) param
      obtain ⟨e, he, rfl, -⟩ := exists_call_of_mem_tasks parsed ht module
      obtain ⟨-, hmodule, hkey⟩ := ofEntry_of_moduleParam hs param
      rw [hmodule, List.mem_append, Option.mem_toList, Option.mem_toList] at hword
      rcases hword with hword | hword
      · rcases hkey with hkey | ⟨inner, hinner, hkey⟩
        · obtain rfl := Option.some.inj (hkey.symm.trans hword)
          exact .key he
        · obtain rfl := Option.some.inj (hkey.symm.trans hword)
          exact .key (Outline.Node.mem_allEntries_of_value he hinner)
      · obtain rfl := Option.some.inj hword
        exact .key he
    · cases hword

/-- A scalar whose text has a line feed is in double quotes, where an escape may be one, or it is
a literal block. -/
theorem style_of_newline (parsed : Playbook.parse path content = .ok playbook) {s : Scalar}
    (hvisit : visit ∈ playbook.visits) (hpart : visit.part = .scalar s)
    (feed : '\n' ∈ s.text.toList) : s.style = .double ∨ s.style = .literal := by
  have made := visits_made parsed visit hvisit
  rw [hpart] at made
  obtain ⟨origin, key?, scope, ⟨holder, last, held⟩, rfl⟩ := made
  by_contra other
  rw [not_or] at other
  exact (Outline.scan_scalar_isLine held).2 other.1 other.2 feed

/-- **The words on the walk** over a playbook are in its outline, but for the path. -/
theorem words_written (parsed : Playbook.parse path content = .ok playbook)
    (hvisit : visit ∈ playbook.visits) :
    ∀ word ∈ visit.part.words, Written path content word := by
  have colon : ∀ {c}, visit.part.colon? = some c → Written path content c.key := fun hc => by
    obtain ⟨e, he, hkey⟩ := exists_entry_of_colon parsed hvisit hc
    exact hkey ▸ .key he
  intro word hword
  cases hpart : visit.part with
  | document p =>
    obtain ⟨value, -, build⟩ := exists_read_of_parse parsed
    have hsame : p = playbook := by
      have hcases := part_of_mem_visits hvisit
      rw [hpart] at hcases
      rcases hcases with hdocument | ⟨block, -, hblock⟩ | ⟨item, -, hitem⟩ | ⟨role, hrole⟩ | hlone
      · exact Part.document.inj hdocument
      · cases block <;> cases hblock
      · cases item <;> cases hitem
      · cases hrole
      · cases hlone
    rw [hpart, Part.words, List.mem_singleton, hsame, path_of_build build] at hword
    rw [hword]
    exact .path
  | play p =>
    rw [hpart] at hword
    obtain ⟨field, hfield, rfl⟩ := List.mem_map.mp hword
    have hp : p ∈ playbook.plays := mem_plays_iff.mpr ⟨visit, hvisit, hpart⟩
    obtain ⟨e, he, hkey⟩ := exists_entry_of_playField parsed hp hfield
    exact hkey ▸ .key he
  | task t =>
    have ht : t ∈ playbook.tasks := Visits.mem_tasks ⟨visit, hvisit, hpart⟩
    exact task_words_written parsed ht word (hpart ▸ hword)
  | module call =>
    rw [hpart, Part.words, List.mem_singleton] at hword
    rw [hword]
    exact colon (by rw [hpart]; rfl)
  | role r =>
    rw [hpart] at hword
    cases hword
  | inclusion i =>
    rw [hpart, Part.words, List.mem_cons, List.mem_singleton] at hword
    rcases hword with rfl | rfl
    · exact colon (by rw [hpart]; rfl)
    · have made := visits_made parsed visit hvisit
      rw [hpart] at made
      obtain ⟨origin, key?, scope, ⟨holder, last, held⟩, htarget⟩ := made
      rw [htarget]
      exact .token held
  | entry e =>
    rw [hpart, Part.words, List.mem_singleton] at hword
    rw [hword]
    exact colon (by rw [hpart]; rfl)
  | scalar s => exact scalar_words_written parsed hvisit hpart word (hpart ▸ hword)

end Walk

end Playbook

end PlaybookStyle
