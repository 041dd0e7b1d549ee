/-
What rules repeat.

A remark names keys and tokens by their words, and these are on one line wherever the part is.
Six rules also repeat texts as they are read: expressions, names of registered variables and of
roles, and the files that are named (`Rule.Repeats`). A message has a line feed exactly if
such a text has (`builtin_unbroken`).
-/

import PlaybookStyle.Proofs.Playbook.Words
import PlaybookStyle.Proofs.Rule.Places
import PlaybookStyle.Proofs.Rule.Steps
import PlaybookStyle.Proofs.Rule.Template

namespace PlaybookStyle

open Playbook Text

namespace Rule

/-- What a remark of a rule repeats of what it has read, escapes taken for what they stand for. -/
inductive Repeats (rule : Rule) (part : Part) (remark : Remark) : List Char → Prop
  | expression {s : Scalar} {inner : List Char} (id : rule.id = jinjaSpacing.id)
      (hpart : part = .scalar s) (hinner : inner ∈ expressions s.text.toList)
      (hremark : remark = expressionRemark s.position inner) : Repeats rule part remark inner
  | scalar {s : Scalar} (id : rule.id ∈ [variableNaming.id, fileExtension.id, vaultFileExtension.id])
      (hpart : part = .scalar s) : Repeats rule part remark s.text.toList
  | role {r : Role} {name : Scalar} (id : rule.id ∈ [mapSyntax.id, roleNaming.id])
      (hpart : part = .role r) (hname : r.name? = some name) :
      Repeats rule part remark name.text.toList

/-- Where the words of a part are on one line, so is all that the rule says of it, but for the
texts that it repeats. -/
def Unbroken (rule : Rule) : Prop :=
  ∀ (conventions : Conventions) (visit : Visit), (∀ word ∈ visit.part.words, IsLine word) →
    ∀ remark ∈ rule.remarks conventions visit,
      IsLine remark.message ↔ ∀ text, rule.Repeats visit.part remark text → '\n' ∉ text

variable {rule : Rule} {part : Part} {remark : Remark}

/-- The rules that repeat a text. -/
theorem Repeats.id_mem {text : List Char} (h : rule.Repeats part remark text) :
    rule.id ∈ [jinjaSpacing, variableNaming, fileExtension, vaultFileExtension, mapSyntax,
      roleNaming].map Rule.id := by
  cases h with
  | expression id => exact id ▸ List.mem_cons_self
  | scalar id => exact List.mem_cons_of_mem _ (List.mem_append_left [mapSyntax.id, roleNaming.id] id)
  | role id =>
    let others := [jinjaSpacing.id, variableNaming.id, fileExtension.id, vaultFileExtension.id]
    exact List.mem_append_right others id

/-- A rule that repeats no text keeps to one line. -/
theorem unbroken_of_isLine
    (id : rule.id ∉ [jinjaSpacing, variableNaming, fileExtension, vaultFileExtension, mapSyntax,
      roleNaming].map Rule.id)
    (h : ∀ (conventions : Conventions) (visit : Visit), (∀ word ∈ visit.part.words, IsLine word) →
      ∀ remark ∈ rule.remarks conventions visit, IsLine remark.message) : rule.Unbroken :=
  fun conventions visit words remark hremark =>
    iff_of_true (h conventions visit words remark hremark) fun _ repeats =>
      absurd repeats.id_mem id

/-! ### Values -/

theorem isLine_quoted_word {word : String} (h : IsLine word) : IsLine s!"'{word}'" :=
  .append (.append (.lit (by decide)) h) (.lit (by decide))

/-- A parameter is called by words. -/
theorem isLine_nameOf {s : Scalar} (words : ∀ word ∈ (Part.scalar s).words, IsLine word)
    (param : s.context = .moduleParam) : IsLine (nameOf s) := by
  rw [Part.words, if_pos param] at words
  unfold nameOf
  split
  · rename_i key hkey
    exact isLine_quoted_word (words key (by simp [hkey]))
  · have hmodule : IsLine (s.module?.getD "?") := by
      cases hvalue : s.module? with
      | none => exact .lit (by decide)
      | some module => exact words module (by simp [hvalue])
    exact .append (.append (.lit (by decide)) hmodule) (.lit (by decide))

theorem isLine_capitalized (kind : ValueKind) : IsLine (capitalized kind) := by
  unfold capitalized
  split
  · exact .lit (by decide)
  · rename_i c rest hname
    have hchars : c.toUpper ≠ '\n' ∧ '\n' ∉ rest := by
      cases kind <;> (cases hname; decide)
    refine .lit ?_
    rw [List.mem_cons, not_or]
    exact ⟨hchars.1.symm, hchars.2⟩

theorem isLine_quoteRemark? {s : Scalar} (name : IsLine (nameOf s)) {remark : Remark}
    (h : quoteRemark? s = some remark) : IsLine remark.message := by
  have unquoted : ∀ kind,
      IsLine s!"{capitalized kind} value {nameOf s} should not be quoted" := fun kind =>
    .append (.append (.append (isLine_capitalized kind) (.lit (by decide))) name) (.lit (by decide))
  unfold quoteRemark? at h
  split at h
  -- Blocks, flows, nulls and what is quoted as it should be get no remark.
  all_goals first | cases h; done | skip
  · split at h
    · cases h
    · cases h
      exact .append (.append (.lit (by decide)) name) (.lit (by decide))
  · cases h
    exact .append (.append (.lit (by decide)) name) (.lit (by decide))
  · cases h
    exact unquoted _
  · cases h
    exact unquoted _

theorem quoteStyle_unbroken : quoteStyle.Unbroken := by
  refine unbroken_of_isLine (by decide) ?_
  rintro conventions ⟨part, previous?⟩ words remark hremark
  cases part with
  | scalar s =>
    simp only [quoteStyle] at hremark
    split at hremark
    · rename_i param
      exact isLine_quoteRemark? (isLine_nameOf words param) (Option.mem_toList.mp hremark)
    · cases hremark
  | _ => cases hremark

theorem isLine_booleanRemark? {s : Scalar} (raw : IsLine s.raw) {remark : Remark}
    (h : booleanRemark? s = some remark) : IsLine remark.message := by
  have canonical : IsLine (canonicalBoolean s.text) := by
    unfold canonicalBoolean
    split <;> exact .lit (by decide)
  unfold booleanRemark? at h
  dsimp only at h
  split at h
  · cases h
    exact .append (.append (.append (.append (.lit (by decide)) raw) (.lit (by decide))) canonical)
      (.lit (by decide))
  · split at h
    · cases h
      exact .append (.append (.lit (by decide)) raw) (.lit (by decide))
    · cases h

theorem booleanLiteral_unbroken : booleanLiteral.Unbroken := by
  refine unbroken_of_isLine (by decide) ?_
  rintro conventions ⟨part, previous?⟩ words remark hremark
  cases part with
  | scalar s =>
    simp only [booleanLiteral] at hremark
    split at hremark
    · exact isLine_booleanRemark? (words s.raw List.mem_cons_self) (Option.mem_toList.mp hremark)
    · cases hremark
  | _ => cases hremark

theorem includeQuoting_unbroken : includeQuoting.Unbroken := by
  refine unbroken_of_isLine (by decide) ?_
  rintro conventions ⟨part, previous?⟩ words remark hremark
  cases part with
  | inclusion i =>
    have h := Option.mem_toList.mp hremark
    unfold targetRemark? at h
    split at h
    · cases h
      obtain ⟨keyword, target⟩ := List.forall_mem_cons.mp words
      exact .append (.append (.append (.lit (by decide)) keyword) (.lit (by decide)))
        (List.forall_mem_singleton.mp target)
    · cases h
  | _ => cases hremark

/-! ### Keys -/

theorem isLine_colonRemarks {key : String} (hkey : IsLine key) {position : Position}
    {spacing : KeySpacing} {remark : Remark} (h : remark ∈ colonRemarks key position spacing) :
    IsLine remark.message := by
  rcases List.mem_append.mp h with h | h
  · have h := Option.mem_toList.mp h
    unfold beforeColonRemark? at h
    split at h
    · cases h
      exact .append (.append (.lit (by decide)) hkey) (.lit (by decide))
    · cases h
  · have h := Option.mem_toList.mp h
    unfold afterColonRemark? at h
    split at h
    · cases h
      exact .append (.append (.lit (by decide)) hkey) (.lit (by decide))
    · split at h
      · cases h
      · cases h
      · cases h
        exact .append (.append (.append (.lit (by decide)) hkey) (.lit (by decide))) (isLine_nat _)

theorem keySpacing_unbroken : keySpacing.Unbroken := by
  refine unbroken_of_isLine (by decide) ?_
  rintro conventions ⟨part, previous?⟩ words remark hremark
  cases part with
  | entry e => exact isLine_colonRemarks (words e.key List.mem_cons_self) hremark
  | module m => exact isLine_colonRemarks (words m.name List.mem_cons_self) hremark
  | inclusion i => exact isLine_colonRemarks (words i.keyword List.mem_cons_self) hremark
  | _ => cases hremark

/-- The deprecated directives and what replaces them are words without line feeds. -/
theorem isLine_directiveRemark? {e : Entry} {remark : Remark} (h : directiveRemark? e = some remark) :
    IsLine remark.message := by
  have fixed : ∀ pair ∈ deprecatedDirectives, IsLine pair.1 ∧ IsLine pair.2 := by
    intro pair hpair
    simp only [deprecatedDirectives, List.mem_cons, List.not_mem_nil, or_false] at hpair
    rcases hpair with rfl | rfl | rfl | rfl | rfl | rfl | rfl
    all_goals exact ⟨.lit (by decide), .lit (by decide)⟩
  obtain ⟨new, found, rfl⟩ := Option.map_eq_some_iff.mp h
  obtain ⟨before, after, directives, -⟩ := List.lookup_eq_some_iff.mp found
  obtain ⟨hkey, hnew⟩ := fixed (e.key, new) (by simp [directives])
  exact .append (.append (.append (.append (.lit (by decide)) hkey) (.lit (by decide))) hnew)
    (.lit (by decide))

theorem sudoBecome_unbroken : sudoBecome.Unbroken := by
  refine unbroken_of_isLine (by decide) ?_
  rintro conventions ⟨part, previous?⟩ words remark hremark
  cases part with
  | play | task | role | inclusion =>
    obtain ⟨e, -, hremark⟩ := List.mem_filterMap.mp hremark
    exact isLine_directiveRemark? hremark
  | _ => cases hremark

/-! ### Order -/

section Order

variable {κ : Type} {fields : List (Playbook.Field κ)}

/-- What is out of its place is named by keys of the fields. -/
theorem isLine_of_mem_misplaced {rank : κ → Nat} {found : Playbook.Field κ × String}
    (words : ∀ field ∈ fields, IsLine field.key) (h : found ∈ misplaced rank none fields) :
    IsLine found.1.key ∧ IsLine found.2 := by
  obtain ⟨field, key⟩ := found
  obtain ⟨before, after, rfl, first, furthest, -, rfl⟩ := mem_misplaced_iff.mp h
  exact ⟨words field (by simp), words first (by simp [furthest.mem])⟩

/-- So is what is not sorted. -/
theorem isLine_of_mem_unsorted {keys : List (String × Position)}
    {found : String × String × Position} (words : ∀ key ∈ keys, IsLine key.1)
    (h : found ∈ unsorted keys) : IsLine found.1 ∧ IsLine found.2.1 := by
  obtain ⟨key, previous, position⟩ := found
  obtain ⟨before, after, rfl, last, -⟩ := mem_unsorted_iff.mp h
  refine ⟨words (key, position) (by simp), ?_⟩
  obtain ⟨found, hfound, rfl⟩ := List.mem_map.mp (List.mem_of_getLast? last)
  exact words found (List.mem_append_left _ hfound)

theorem isLine_of_mem_keysOfKind [DecidableEq κ] {kind : κ}
    (words : ∀ field ∈ fields, IsLine field.key) :
    ∀ key ∈ keysOfKind kind fields, IsLine key.1 := by
  intro key hkey
  obtain ⟨field, hfield, rfl⟩ := List.mem_map.mp hkey
  exact words field (List.mem_filter.mp hfield).1

/-- The message on a pair of keys. -/
theorem isLine_ofKeys {before between behind key other : String} (hbefore : IsLine before)
    (hbetween : IsLine between) (hbehind : IsLine behind) (h : IsLine key ∧ IsLine other) :
    IsLine (before ++ key ++ between ++ other ++ behind) :=
  .append (.append (.append (.append hbefore h.1) hbetween) h.2) hbehind

end Order

theorem hostBlockOrder_unbroken : hostBlockOrder.Unbroken := by
  refine unbroken_of_isLine (by decide) ?_
  rintro conventions ⟨part, previous?⟩ words remark hremark
  cases part with
  | play p =>
    have fields : ∀ field ∈ p.fields, IsLine field.key := List.forall_mem_map.mp words
    rcases List.mem_append.mp hremark with h | h
    · obtain ⟨found, hfound, rfl⟩ := List.mem_map.mp h
      exact isLine_ofKeys (.lit (by decide)) (.lit (by decide)) (.lit (by decide))
        (isLine_of_mem_misplaced fields hfound)
    · obtain ⟨found, hfound, rfl⟩ := List.mem_map.mp h
      exact isLine_ofKeys (.lit (by decide)) (.lit (by decide)) (.lit (by decide))
        (isLine_of_mem_unsorted (isLine_of_mem_keysOfKind fields) hfound)
  | _ => cases hremark

theorem taskFieldOrder_unbroken : taskFieldOrder.Unbroken := by
  refine unbroken_of_isLine (by decide) ?_
  rintro conventions ⟨part, previous?⟩ words remark hremark
  cases part with
  | task t =>
    simp only [Part.words, List.forall_mem_append, List.forall_mem_map, Option.mem_toList] at words
    obtain ⟨⟨fields, module⟩, params⟩ := words
    rcases List.mem_append.mp hremark with h | h
    · rcases List.mem_append.mp h with h | h
      · obtain ⟨found, hfound, rfl⟩ := List.mem_map.mp h
        exact isLine_ofKeys (.lit (by decide)) (.lit (by decide)) (.lit (by decide))
          (isLine_of_mem_misplaced fields hfound)
      · obtain ⟨m, hm, h⟩ := List.mem_flatMap.mp h
        have hm := Option.mem_toList.mp hm
        obtain ⟨found, hfound, rfl⟩ := List.mem_map.mp h
        rw [TaskOf.params, hm, Option.bind_some] at params
        obtain ⟨hkey, hprevious⟩ := isLine_of_mem_unsorted (List.forall_mem_map.mpr params) hfound
        exact .append (.append (.append (.append (.append (.append (.lit (by decide)) hkey)
          (.lit (by decide))) (module m hm)) (.lit (by decide))) hprevious) (.lit (by decide))
    · obtain ⟨found, hfound, rfl⟩ := List.mem_map.mp h
      exact isLine_ofKeys (.lit (by decide)) (.lit (by decide)) (.lit (by decide))
        (isLine_of_mem_unsorted (isLine_of_mem_keysOfKind fields) hfound)
  | _ => cases hremark

/-! ### Layout -/

theorem includeSpacing_unbroken : includeSpacing.Unbroken := by
  refine unbroken_of_isLine (by decide) ?_
  rintro conventions ⟨part, previous?⟩ words remark hremark
  simp only [includeSpacing] at hremark
  split at hremark
  · have h := Option.mem_toList.mp hremark
    unfold includeRemark? at h
    split at h
    · cases h
      exact .lit (by decide)
    · cases h
      exact .lit (by decide)
    · cases h
  · cases hremark

theorem isLine_separated? {part previous : Part} {what : String} {blank : Nat} {position : Position}
    (h : separated? part previous = some (what, blank, position)) : IsLine what := by
  unfold separated? at h
  split at h
  all_goals cases h
  all_goals exact .lit (by decide)

theorem blockSpacing_unbroken : blockSpacing.Unbroken := by
  refine unbroken_of_isLine (by decide) ?_
  rintro conventions ⟨part, previous?⟩ words remark hremark
  obtain ⟨previous, -, h⟩ := Option.bind_eq_some_iff.mp (Option.mem_toList.mp hremark)
  unfold blockRemark? at h
  split at h
  · rename_i what position hseparated
    cases h
    exact .append (.append (.append (.append (.lit (by decide)) (isLine_separated? hseparated))
      (.lit (by decide))) (isLine_nat _)) (.lit (by decide))
  · cases h

theorem isLine_indentRemark? {number : Nat} {line : List Char} {remark : Remark}
    (h : indentRemark? number line = some remark) : IsLine remark.message := by
  unfold indentRemark? at h
  dsimp only at h
  split at h
  · cases h
  · cases h
  · split at h
    · cases h
      exact .lit (by decide)
    · split at h
      · cases h
        exact .append (.append (.lit (by decide)) (isLine_nat _)) (.lit (by decide))
      · cases h

theorem indentation_unbroken : indentation.Unbroken := by
  refine unbroken_of_isLine (by decide) ?_
  rintro conventions ⟨part, previous?⟩ words remark hremark
  cases part with
  | document p =>
    simp only [indentation] at hremark
    split at hremark
    · cases hremark
    · obtain ⟨⟨number, line⟩, -, h⟩ := List.mem_filterMap.mp hremark
      dsimp only at h
      split at h
      · cases h
      · exact isLine_indentRemark? h
  | _ => cases hremark

/-! ### Rules that repeat texts -/

section Repeats

variable {s : Scalar} {r : Role} {text : List Char}

theorem Repeats.scalar_or_role (h : rule.Repeats part remark text) :
    (∃ s, part = .scalar s) ∨ ∃ r, part = .role r := by
  cases h with
  | expression _ hpart | scalar _ hpart => exact .inl ⟨_, hpart⟩
  | role _ hpart => exact .inr ⟨_, hpart⟩

theorem repeats_expression_iff :
    jinjaSpacing.Repeats (.scalar s) remark text ↔
      text ∈ expressions s.text.toList ∧ remark = expressionRemark s.position text := by
  refine ⟨fun h => ?_, fun h => .expression rfl rfl h.1 h.2⟩
  cases h with
  | expression _ hpart hinner hremark =>
    obtain rfl := Part.scalar.inj hpart
    exact ⟨hinner, hremark⟩
  | scalar id => exact absurd id (by decide)
  | role _ hpart => cases hpart

theorem repeats_scalar_iff
    (id : rule.id ∈ [variableNaming.id, fileExtension.id, vaultFileExtension.id]) :
    rule.Repeats (.scalar s) remark text ↔ text = s.text.toList := by
  constructor
  · intro h
    cases h with
    | expression other => exact absurd (other ▸ id) (by decide)
    | scalar _ hpart => rw [Part.scalar.inj hpart]
    | role _ hpart => cases hpart
  · rintro rfl
    exact .scalar id rfl

theorem repeats_role_iff (id : rule.id ∈ [mapSyntax.id, roleNaming.id]) :
    rule.Repeats (.role r) remark text ↔ ∃ name, r.name? = some name ∧ text = name.text.toList := by
  constructor
  · intro h
    cases h with
    | expression _ hpart | scalar _ hpart => cases hpart
    | role _ hpart hname =>
      obtain rfl := Part.role.inj hpart
      exact ⟨_, hname, rfl⟩
  · rintro ⟨name, hname, rfl⟩
    exact .role id rfl hname

theorem subset_of_mem_expressions {inner : List Char} (h : inner ∈ expressions text) :
    inner ⊆ text := by
  intro c hc
  rw [← map_snd_cut] at h
  obtain ⟨piece, hpiece, rfl⟩ := List.mem_map.mp h
  have hwritten : c ∈ (cut text).written delimited := by
    refine List.mem_append_left _ (List.mem_flatMap.mpr ⟨piece, hpiece, ?_⟩)
    simp [delimited, hc]
  rwa [written_cut] at hwritten

/-- What is repeated of a scalar is in its text. -/
theorem Repeats.subset (h : rule.Repeats (.scalar s) remark text) : text ⊆ s.text.toList := by
  cases h with
  | expression _ hpart hinner =>
    obtain rfl := Part.scalar.inj hpart
    exact subset_of_mem_expressions hinner
  | scalar _ hpart =>
    obtain rfl := Part.scalar.inj hpart
    exact List.Subset.refl _
  | role _ hpart => cases hpart

/-- A part whose texts no rule repeats. -/
theorem isLine_iff_of_not_repeats (other : (∀ s, part ≠ .scalar s) ∧ ∀ r, part ≠ .role r)
    (h : IsLine remark.message) :
    IsLine remark.message ↔ ∀ text, rule.Repeats part remark text → '\n' ∉ text := by
  refine iff_of_true h fun text repeats => ?_
  rcases repeats.scalar_or_role with ⟨s, hs⟩ | ⟨r, hr⟩
  · exact absurd hs (other.1 s)
  · exact absurd hr (other.2 r)

end Repeats

/-! ### Expressions and names -/

theorem isLine_expressionRemark {position : Position} {inner : List Char} :
    IsLine (expressionRemark position inner).message ↔ '\n' ∉ inner := by
  have message : (expressionRemark position inner).message = "Jinja expression " ++
      String.ofList (delimited inner) ++ " should have exactly one space inside its delimiters" := rfl
  have ends : '\n' ∉ openDelimiter ∧ '\n' ∉ closeDelimiter := by decide
  rw [message, isLine_between (.lit (by decide)) (.lit (by decide)), isLine_ofList, delimited]
  simp only [List.mem_append, not_or, ends, true_and, and_true, not_false_eq_true]

theorem jinjaSpacing_unbroken : jinjaSpacing.Unbroken := by
  rintro conventions ⟨part, previous?⟩ words remark hremark
  cases part with
  | scalar s =>
    obtain ⟨inner, hinner, rfl⟩ := List.mem_map.mp hremark
    simp only [repeats_expression_iff]
    constructor
    · rintro h text ⟨-, same⟩
      rw [same] at h
      exact isLine_expressionRemark.mp h
    · exact fun h => isLine_expressionRemark.mpr (h inner ⟨(List.mem_filter.mp hinner).1, rfl⟩)
  | _ => cases hremark

theorem isLine_variableRemark? {name : String} {position : Position} {remark : Remark}
    (h : variableRemark? name position = some remark) : IsLine remark.message ↔ IsLine name := by
  unfold variableRemark? at h
  split at h
  · cases h
  · cases h
    exact isLine_between (.lit (by decide)) (.lit (by decide))

theorem variableNaming_unbroken : variableNaming.Unbroken := by
  rintro conventions ⟨part, previous?⟩ words remark hremark
  cases part with
  | entry e =>
    simp only [variableNaming] at hremark
    split at hremark
    · exact isLine_iff_of_not_repeats (by simp)
        ((isLine_variableRemark? (Option.mem_toList.mp hremark)).mpr (words e.key List.mem_cons_self))
    · cases hremark
  | scalar s =>
    simp only [variableNaming] at hremark
    split at hremark
    · have id : variableNaming.id ∈ [variableNaming.id, fileExtension.id, vaultFileExtension.id] := by decide
      simp only [repeats_scalar_iff id, forall_eq]
      exact isLine_variableRemark? (Option.mem_toList.mp hremark)
    · cases hremark
  | _ => cases hremark

theorem roleNaming_unbroken : roleNaming.Unbroken := by
  rintro conventions ⟨part, previous?⟩ words remark hremark
  cases part with
  | role r =>
    obtain ⟨name, hname, h⟩ := Option.bind_eq_some_iff.mp (Option.mem_toList.mp hremark)
    have id : roleNaming.id ∈ [mapSyntax.id, roleNaming.id] := by decide
    simp only [repeats_role_iff id, hname, Option.some.injEq, exists_eq_left', forall_eq]
    unfold roleNameRemark? at h
    split at h
    · cases h
    · cases h
      exact isLine_between (.lit (by decide)) (.lit (by decide))
  | _ => cases hremark

theorem mapSyntax_unbroken : mapSyntax.Unbroken := by
  rintro conventions ⟨part, previous?⟩ words remark hremark
  cases part with
  | module m =>
    have name := words m.name List.mem_cons_self
    have h := Option.mem_toList.mp hremark
    unfold moduleRemark? at h
    split at h
    · dsimp only at h
      split at h
      · cases h
        refine isLine_iff_of_not_repeats (by simp) ?_
        dsimp only
        split
        · exact .append (.append (.lit (by decide)) name) (.lit (by decide))
        · exact .append (.append (.lit (by decide)) name) (.lit (by decide))
      · cases h
    · cases h
  | role r =>
    have h := Option.mem_toList.mp hremark
    unfold roleRemark? at h
    split at h
    · cases h
      have id : mapSyntax.id ∈ [mapSyntax.id, roleNaming.id] := by decide
      refine (isLine_between (.lit (by decide)) (.lit (by decide))).trans ?_
      simp only [repeats_role_iff id]
      cases hname : r.name? with
      | none => exact iff_of_true (.lit (by decide)) (by rintro _ ⟨_, ⟨⟩, -⟩)
      | some name =>
        simp only [Option.some.injEq, exists_eq_left', forall_eq]
        exact Iff.rfl
    · cases h
  | _ => cases hremark

/-! ### Files -/

theorem isLine_extensionRemark? {policy : ExtensionPolicy} {path : String} {position : Position}
    {remark : Remark} (h : extensionRemark? policy path position = some remark) :
    IsLine remark.message ↔ IsLine path := by
  unfold extensionRemark? at h
  split at h
  · cases h
  · split at h
    · cases h
      have preferred : IsLine policy.preferred := .lit (by decide)
      exact (isLine_append_left (.lit (by decide))).trans <| (isLine_append_left preferred).trans <|
        isLine_between (.lit (by decide)) (.lit (by decide))
    · cases h

theorem isLine_vaultRemark? {path : String} {position : Position} {remark : Remark}
    (h : vaultRemark? path position = some remark) : IsLine remark.message ↔ IsLine path := by
  unfold vaultRemark? at h
  split at h
  · cases h
  · cases h
    have extension : IsLine vaultExtension := .lit (by decide)
    exact (isLine_append_left (.lit (by decide))).trans <| (isLine_append_left extension).trans <|
      isLine_between (.lit (by decide)) (.lit (by decide))

theorem fileExtension_unbroken : fileExtension.Unbroken := by
  rintro conventions ⟨part, previous?⟩ words remark hremark
  cases part with
  | document p =>
    simp only [fileExtension] at hremark
    split at hremark
    · cases hremark
    · exact isLine_iff_of_not_repeats (by simp)
        ((isLine_extensionRemark? (Option.mem_toList.mp hremark)).mpr
          (words p.path List.mem_cons_self))
  | scalar s =>
    simp only [fileExtension] at hremark
    split at hremark
    · rename_i file hfile
      obtain rfl := namedFile?_eq hfile
      split at hremark
      · cases hremark
      · have id : fileExtension.id ∈ [variableNaming.id, fileExtension.id, vaultFileExtension.id] := by decide
        simp only [repeats_scalar_iff id, forall_eq]
        exact isLine_extensionRemark? (Option.mem_toList.mp hremark)
    · cases hremark
  | _ => cases hremark

theorem vaultFileExtension_unbroken : vaultFileExtension.Unbroken := by
  rintro conventions ⟨part, previous?⟩ words remark hremark
  cases part with
  | document p =>
    simp only [vaultFileExtension] at hremark
    split at hremark
    · exact isLine_iff_of_not_repeats (by simp)
        ((isLine_vaultRemark? (Option.mem_toList.mp hremark)).mpr (words p.path List.mem_cons_self))
    · cases hremark
  | scalar s =>
    simp only [vaultFileExtension] at hremark
    split at hremark
    · rename_i file hfile
      obtain rfl := namedFile?_eq hfile
      split at hremark
      · have id : vaultFileExtension.id ∈ [variableNaming.id, fileExtension.id, vaultFileExtension.id] := by decide
        simp only [repeats_scalar_iff id, forall_eq]
        exact isLine_vaultRemark? (Option.mem_toList.mp hremark)
      · cases hremark
    · cases hremark
  | _ => cases hremark

/-- **No built-in rule breaks a line** but at the texts that it repeats. -/
theorem builtin_unbroken : ∀ rule ∈ builtin, rule.Unbroken := by
  simp only [builtin, List.forall_mem_cons, List.not_mem_nil, false_imp_iff, implies_true, and_true]
  exact ⟨quoteStyle_unbroken, booleanLiteral_unbroken, keySpacing_unbroken, mapSyntax_unbroken,
    sudoBecome_unbroken, hostBlockOrder_unbroken, taskFieldOrder_unbroken, includeQuoting_unbroken,
    includeSpacing_unbroken, blockSpacing_unbroken, indentation_unbroken, variableNaming_unbroken,
    roleNaming_unbroken, jinjaSpacing_unbroken, fileExtension_unbroken, vaultFileExtension_unbroken⟩

end Rule

end PlaybookStyle
