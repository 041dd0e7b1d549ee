/-
Rules point only at what they look at.

A rule may look at one part of the playbook; every remark it makes is at one of
that part's places (`Rule.PointsInside`). With `Playbook.visits_everywhere` this
puts every finding inside the source (`Linter.check_liesIn`): at a position of the
outline, at a place in the indentation of a line, or at the start of the file.
-/

import PlaybookStyle.Linter
import PlaybookStyle.Proofs.Outline.Placement
import PlaybookStyle.Proofs.Playbook.Places
import PlaybookStyle.Proofs.Selection

namespace PlaybookStyle

open Playbook Text

/-- Whatever holds of the places of a part holds of the places that a rule points
at when it looks at this part. -/
def Rule.PointsInside (rule : Rule) : Prop :=
  ∀ (P : Position → Prop) (conventions : Conventions) (visit : Visit), visit.part.Everywhere P →
    ∀ remark ∈ rule.remarks conventions visit, P remark.position

namespace Rule

/-! ### Values and their layout -/

theorem quoteRemark?_position {s : Scalar} {remark : Remark} (h : quoteRemark? s = some remark) :
    remark.position = s.position := by
  unfold quoteRemark? at h
  repeat' split at h
  all_goals cases h <;> rfl

theorem quoteStyle_pointsInside : quoteStyle.PointsInside := by
  rintro P conventions ⟨part, previous?⟩ hpart remark hremark
  cases part with
  | scalar s =>
    simp only [quoteStyle] at hremark
    split at hremark
    · rw [quoteRemark?_position (Option.mem_toList.mp hremark)]
      exact hpart
    · cases hremark
  | _ => cases hremark

theorem booleanRemark?_position {s : Scalar} {remark : Remark}
    (h : booleanRemark? s = some remark) : remark.position = s.position := by
  unfold booleanRemark? at h
  dsimp only at h
  repeat' split at h
  all_goals cases h <;> rfl

theorem booleanLiteral_pointsInside : booleanLiteral.PointsInside := by
  rintro P conventions ⟨part, previous?⟩ hpart remark hremark
  cases part with
  | scalar s =>
    simp only [booleanLiteral] at hremark
    split at hremark
    · rw [booleanRemark?_position (Option.mem_toList.mp hremark)]
      exact hpart
    · cases hremark
  | _ => cases hremark

theorem jinjaSpacing_pointsInside : jinjaSpacing.PointsInside := by
  rintro P conventions ⟨part, previous?⟩ hpart remark hremark
  cases part with
  | scalar s =>
    obtain ⟨inner, -, rfl⟩ := List.mem_map.mp hremark
    exact hpart
  | _ => cases hremark

theorem colonRemarks_position {key : String} {position : Position} {spacing : KeySpacing}
    {remark : Remark} (h : remark ∈ colonRemarks key position spacing) :
    remark.position = position := by
  rcases List.mem_append.mp h with h | h
  all_goals
    have h := Option.mem_toList.mp h
    simp only [beforeColonRemark?, afterColonRemark?] at h
    repeat' split at h
    all_goals cases h <;> rfl

theorem keySpacing_pointsInside : keySpacing.PointsInside := by
  rintro P conventions ⟨part, previous?⟩ hpart remark hremark
  cases part with
  | entry e =>
    rw [colonRemarks_position hremark]
    exact hpart
  | module m =>
    rw [colonRemarks_position hremark]
    exact hpart.position
  | inclusion i =>
    rw [colonRemarks_position hremark]
    exact hpart.2.1
  | _ => cases hremark

/-! ### Parameters and privileges -/

theorem mapSyntax_pointsInside : mapSyntax.PointsInside := by
  rintro P conventions ⟨part, previous?⟩ hpart remark hremark
  cases part with
  | module m =>
    have h := Option.mem_toList.mp hremark
    unfold moduleRemark? at h
    split at h
    · rename_i args hargs
      dsimp only at h
      split at h
      · cases h
        exact hpart.inline args (by rw [ModuleCall.inline?, hargs]; rfl)
      · cases h
    · cases h
  | role r =>
    have h := Option.mem_toList.mp hremark
    unfold roleRemark? at h
    split at h
    · cases h
      obtain ⟨hrole, -, hflow, -⟩ := hpart
      cases hvalue : r.flow? with
      | none => simpa [hvalue] using hrole
      | some s => simpa [hvalue] using hflow s hvalue
    · cases h
  | _ => cases hremark

theorem directiveRemarks_position {P : Position → Prop} {entries : List Entry} {remark : Remark}
    (hentries : ∀ entry ∈ entries, P entry.position)
    (h : remark ∈ entries.filterMap directiveRemark?) : P remark.position := by
  obtain ⟨entry, hentry, hremark⟩ := List.mem_filterMap.mp h
  obtain ⟨new, -, rfl⟩ := Option.map_eq_some_iff.mp hremark
  exact hentries entry hentry

theorem sudoBecome_pointsInside : sudoBecome.PointsInside := by
  rintro P conventions ⟨part, previous?⟩ hpart remark hremark
  cases part with
  | play p => exact directiveRemarks_position hpart.2.2 hremark
  | task t => exact directiveRemarks_position hpart.2.2.1 hremark
  | role r => exact directiveRemarks_position hpart.2.2.2 hremark
  | inclusion i => exact directiveRemarks_position hpart.2.2.2 hremark
  | _ => cases hremark

theorem includeQuoting_pointsInside : includeQuoting.PointsInside := by
  rintro P conventions ⟨part, previous?⟩ hpart remark hremark
  cases part with
  | inclusion i =>
    have h := Option.mem_toList.mp hremark
    unfold targetRemark? at h
    split at h
    · cases h
      exact hpart.2.2.1
    · cases h
  | _ => cases hremark

/-! ### Order -/

theorem mem_of_mem_misplaced {κ : Type} {rank : κ → Nat} {furthest? : Option (Nat × String)}
    {fields : List (Playbook.Field κ)} {found : Playbook.Field κ × String}
    (h : found ∈ misplaced rank furthest? fields) : found.1 ∈ fields := by
  fun_induction misplaced rank furthest? fields with
  | case1 => cases h
  | case2 field rest ih => exact List.mem_cons_of_mem _ (ih h)
  | case3 field rest reached key _ ih =>
    rcases List.mem_cons.mp h with rfl | h
    · exact List.mem_cons_self
    · exact List.mem_cons_of_mem _ (ih h)
  | case4 field rest key _ ih => exact List.mem_cons_of_mem _ (ih h)
  | case5 field rest reached key _ _ ih => exact List.mem_cons_of_mem _ (ih h)

theorem mem_of_mem_unsorted {keys : List (String × Position)} {key previous : String}
    {position : Position} (h : (key, previous, position) ∈ unsorted keys) :
    (key, position) ∈ keys := by
  fun_induction unsorted keys with
  | case1 first second rest _ ih =>
    rcases List.mem_cons.mp h with heq | h
    · cases heq
      exact List.mem_cons_of_mem _ List.mem_cons_self
    · exact List.mem_cons_of_mem _ (ih h)
  | case2 first second rest _ ih => exact List.mem_cons_of_mem _ (ih h)
  | case3 => cases h

section Fields

variable {P : Position → Prop} {κ : Type}

theorem unsorted_position {keys : List (String × Position)} {found : String × String × Position}
    (hkeys : ∀ key ∈ keys, P key.2) (h : found ∈ unsorted keys) : P found.2.2 := by
  obtain ⟨key, previous, position⟩ := found
  exact hkeys (key, position) (mem_of_mem_unsorted h)

theorem keysOfKind_position [DecidableEq κ] {kind : κ} {fields : List (Playbook.Field κ)}
    (hfields : ∀ field ∈ fields, P field.position) :
    ∀ key ∈ keysOfKind kind fields, P key.2 := by
  intro key hkey
  obtain ⟨field, hfield, rfl⟩ := List.mem_map.mp hkey
  exact hfields field (List.mem_filter.mp hfield).1

end Fields

theorem hostBlockOrder_pointsInside : hostBlockOrder.PointsInside := by
  rintro P conventions ⟨part, previous?⟩ hpart remark hremark
  cases part with
  | play p =>
    rcases List.mem_append.mp hremark with h | h
    · obtain ⟨found, hfound, rfl⟩ := List.mem_map.mp h
      exact hpart.2.1 _ (mem_of_mem_misplaced hfound)
    · obtain ⟨found, hfound, rfl⟩ := List.mem_map.mp h
      exact unsorted_position (keysOfKind_position hpart.2.1) hfound
  | _ => cases hremark

theorem parameterRemarks_position {P : Position → Prop} {m : ModuleCall} {remark : Remark}
    (hm : m.Everywhere P) (h : remark ∈ parameterRemarks m) : P remark.position := by
  obtain ⟨found, hfound, rfl⟩ := List.mem_map.mp h
  refine unsorted_position ?_ hfound
  intro key hkey
  obtain ⟨entry, hentry, rfl⟩ := List.mem_map.mp hkey
  cases hparams : m.params? with
  | none =>
    rw [hparams] at hentry
    cases hentry
  | some entries =>
    rw [hparams] at hentry
    exact hm.params entries hparams entry hentry

theorem taskFieldOrder_pointsInside : taskFieldOrder.PointsInside := by
  rintro P conventions ⟨part, previous?⟩ hpart remark hremark
  cases part with
  | task t =>
    obtain ⟨-, hfields, -, hmodule⟩ := hpart
    rcases List.mem_append.mp hremark with h | h
    · rcases List.mem_append.mp h with h | h
      · obtain ⟨found, hfound, rfl⟩ := List.mem_map.mp h
        exact hfields _ (mem_of_mem_misplaced hfound)
      · obtain ⟨m, hm, h⟩ := List.mem_flatMap.mp h
        exact parameterRemarks_position (hmodule m (Option.mem_toList.mp hm)) h
    · obtain ⟨found, hfound, rfl⟩ := List.mem_map.mp h
      exact unsorted_position (keysOfKind_position hfields) hfound
  | _ => cases hremark

/-! ### Separation -/

theorem includeSpacing_pointsInside : includeSpacing.PointsInside := by
  rintro P conventions ⟨part, previous?⟩ hpart remark hremark
  simp only [includeSpacing] at hremark
  split at hremark
  · rename_i i previous hinclusion
    have h := Option.mem_toList.mp hremark
    unfold includeRemark? at h
    split at h
    · cases h
      exact hpart.1
    · cases h
      exact hpart.1
    · cases h
  · cases hremark

theorem separated?_position {P : Position → Prop} {part previous : Part} {what : String}
    {blank : Nat} {position : Position} (hpart : part.Everywhere P)
    (h : separated? part previous = some (what, blank, position)) : P position := by
  unfold separated? at h
  split at h
  · cases h
  · cases h
    exact hpart.1
  · cases h
    exact hpart.1
  · cases h
    exact hpart.1
  · cases h

theorem blockSpacing_pointsInside : blockSpacing.PointsInside := by
  rintro P conventions ⟨part, previous?⟩ hpart remark hremark
  obtain ⟨previous, -, h⟩ := Option.bind_eq_some_iff.mp (Option.mem_toList.mp hremark)
  unfold blockRemark? at h
  split at h
  · rename_i what position hseparated
    cases h
    exact separated?_position hpart hseparated
  · cases h

/-! ### Names -/

theorem variableRemark?_position {name : String} {position : Position} {remark : Remark}
    (h : variableRemark? name position = some remark) : remark.position = position := by
  unfold variableRemark? at h
  split at h
  all_goals cases h <;> rfl

theorem variableNaming_pointsInside : variableNaming.PointsInside := by
  rintro P conventions ⟨part, previous?⟩ hpart remark hremark
  cases part with
  | entry e =>
    simp only [variableNaming] at hremark
    split at hremark
    · rw [variableRemark?_position (Option.mem_toList.mp hremark)]
      exact hpart
    · cases hremark
  | scalar s =>
    simp only [variableNaming] at hremark
    split at hremark
    · rw [variableRemark?_position (Option.mem_toList.mp hremark)]
      exact hpart
    · cases hremark
  | _ => cases hremark

theorem roleNaming_pointsInside : roleNaming.PointsInside := by
  rintro P conventions ⟨part, previous?⟩ hpart remark hremark
  cases part with
  | role r =>
    obtain ⟨name, hname, h⟩ := Option.bind_eq_some_iff.mp (Option.mem_toList.mp hremark)
    unfold roleNameRemark? at h
    split at h
    · cases h
    · cases h
      exact hpart.2.1 name hname
  | _ => cases hremark

/-! ### Files -/

theorem extensionRemark?_position {policy : ExtensionPolicy} {path : String} {position : Position}
    {remark : Remark} (h : extensionRemark? policy path position = some remark) :
    remark.position = position := by
  unfold extensionRemark? at h
  repeat' split at h
  all_goals cases h <;> rfl

theorem vaultRemark?_position {path : String} {position : Position} {remark : Remark}
    (h : vaultRemark? path position = some remark) : remark.position = position := by
  unfold vaultRemark? at h
  split at h
  all_goals cases h <;> rfl

theorem namedFile?_eq {s file : Scalar} (h : namedFile? s = some file) : file = s := by
  unfold namedFile? at h
  split at h
  all_goals cases h <;> rfl

theorem fileExtension_pointsInside : fileExtension.PointsInside := by
  rintro P conventions ⟨part, previous?⟩ hpart remark hremark
  cases part with
  | document p =>
    simp only [fileExtension] at hremark
    split at hremark
    · cases hremark
    · rw [extensionRemark?_position (Option.mem_toList.mp hremark)]
      exact hpart.1
  | scalar s =>
    simp only [fileExtension] at hremark
    split at hremark
    · rename_i file hfile
      obtain rfl := namedFile?_eq hfile
      split at hremark
      · cases hremark
      · rw [extensionRemark?_position (Option.mem_toList.mp hremark)]
        exact hpart
    · cases hremark
  | _ => cases hremark

theorem vaultFileExtension_pointsInside : vaultFileExtension.PointsInside := by
  rintro P conventions ⟨part, previous?⟩ hpart remark hremark
  cases part with
  | document p =>
    simp only [vaultFileExtension] at hremark
    split at hremark
    · rw [vaultRemark?_position (Option.mem_toList.mp hremark)]
      exact hpart.1
    · cases hremark
  | scalar s =>
    simp only [vaultFileExtension] at hremark
    split at hremark
    · rename_i file hfile
      obtain rfl := namedFile?_eq hfile
      split at hremark
      · rw [vaultRemark?_position (Option.mem_toList.mp hremark)]
        exact hpart
      · cases hremark
    · cases hremark
  | _ => cases hremark

/-! ### Indentation -/

theorem byteLength_eq_length_of_indent {text : List Char} (h : text.all isIndent) :
    byteLength text = text.length := by
  induction text with
  | nil => rfl
  | cons c rest ih =>
    rw [List.all_cons, Bool.and_eq_true] at h
    have hsize : c.utf8Size = 1 := by
      have hc := h.1
      simp only [isIndent, Bool.or_eq_true, decide_eq_true_eq] at hc
      rcases hc with rfl | rfl <;> decide
    rw [byteLength_cons, ih h.2, hsize, List.length_cons, Nat.add_comm]

/-- What is wrong with a line, as one question after the other. -/
theorem indentRemark?_eq (number : Nat) (line : List Char) :
    indentRemark? number line =
      if Outline.isAbsent (line.dropWhile isIndent) then none
      else if (line.takeWhile isIndent).contains '\t' then
        some ⟨⟨number, (line.takeWhile isIndent).idxOf '\t' + 1⟩,
          "Tab character used for indentation", some "Indent with spaces"⟩
      else if (line.takeWhile isIndent).length % 2 ≠ 0 then
        some ⟨⟨number, 1⟩,
          s!"Indentation of {(line.takeWhile isIndent).length} spaces is not a multiple of two",
          some "Indent nested blocks by two spaces"⟩
      else none := by
  rw [indentRemark?]
  cases line.dropWhile isIndent with
  | nil => rfl
  | cons c rest =>
    by_cases hc : c = '#'
    · subst hc
      rfl
    · rw [if_neg (show ¬Outline.isAbsent (c :: rest) = true by simp [Outline.isAbsent, hc])]
      split
      · rename_i heq
        cases heq
      · rename_i heq
        exact absurd (List.cons.inj heq).1 hc
      · rfl

/-- The indentation of a line is found fault with at one of its places. -/
theorem indentRemark?_position {number : Nat} {line : List Char} {remark : Remark}
    (h : indentRemark? number line = some remark) :
    ∃ before after, line = before ++ after ∧
      remark.position = ⟨number, byteLength before + 1⟩ := by
  unfold indentRemark? at h
  dsimp only at h
  split at h
  · cases h
  · cases h
  · split at h
    · cases h
      generalize hleading : line.takeWhile isIndent = leading
      have hall : leading.all isIndent := hleading ▸ List.all_takeWhile
      have htab : (leading.take (leading.idxOf '\t')).all isIndent := by
        rw [List.all_eq_true] at hall ⊢
        exact fun c hc => hall c (List.mem_of_mem_take hc)
      refine ⟨leading.take (leading.idxOf '\t'),
        leading.drop (leading.idxOf '\t') ++ line.dropWhile isIndent, ?_, ?_⟩
      · rw [← List.append_assoc, List.take_append_drop, ← hleading, List.takeWhile_append_dropWhile]
      · rw [byteLength_eq_length_of_indent htab, List.length_take,
          Nat.min_eq_left List.idxOf_le_length]
    · split at h
      · cases h
        exact ⟨[], line, rfl, rfl⟩
      · cases h

theorem line_of_mem_numbered {source : SourceLines} {number : Nat} {line : List Char}
    (h : (number, line) ∈ source.numbered) :
    ∃ i, number = i + 1 ∧ source.lines[i]? = some line := by
  obtain ⟨i, hi⟩ := List.mem_iff_getElem?.mp h
  obtain ⟨hnumber, hline⟩ := List.getElem?_zip_eq_some.mp hi
  rw [List.getElem?_range' (by
    by_contra hlt
    rw [List.getElem?_eq_none (by simpa using Nat.le_of_not_lt hlt)] at hnumber
    cases hnumber)] at hnumber
  exact ⟨i, by simpa [Nat.add_comm] using (Option.some.inj hnumber).symm, hline⟩

theorem indentation_pointsInside : indentation.PointsInside := by
  rintro P conventions ⟨part, previous?⟩ hpart remark hremark
  cases part with
  | document p =>
    simp only [indentation] at hremark
    split at hremark
    · cases hremark
    · obtain ⟨⟨number, line⟩, hline, h⟩ := List.mem_filterMap.mp hremark
      obtain ⟨i, rfl, hi⟩ := line_of_mem_numbered hline
      split at h
      · cases h
      · obtain ⟨before, after, rfl, hposition⟩ := indentRemark?_position h
        rw [hposition]
        exact hpart.2 i before after hi
  | _ => cases hremark

/-- Every built-in rule points only at places of the part that it looks at. -/
theorem builtin_pointsInside : ∀ rule ∈ builtin, rule.PointsInside := by
  simp only [builtin, List.forall_mem_cons, List.not_mem_nil, false_imp_iff, implies_true, and_true]
  exact ⟨quoteStyle_pointsInside, booleanLiteral_pointsInside, keySpacing_pointsInside,
    mapSyntax_pointsInside, sudoBecome_pointsInside, hostBlockOrder_pointsInside,
    taskFieldOrder_pointsInside, includeQuoting_pointsInside, includeSpacing_pointsInside,
    blockSpacing_pointsInside, indentation_pointsInside, variableNaming_pointsInside,
    roleNaming_pointsInside, jinjaSpacing_pointsInside, fileExtension_pointsInside,
    vaultFileExtension_pointsInside⟩

end Rule

/-! ### Findings -/

/-- What stands in a source lies in it. -/
theorem Outline.Node.Placed.everywhere {source : List Char} {n : Outline.Node}
    (h : n.Placed source) : n.Everywhere (LiesIn source) := by
  induction h with
  | empty => exact .empty
  | scalar stands =>
    obtain ⟨c, more, -, hfirst⟩ := stands.first
    exact .scalar hfirst.liesIn
  | sequence _ stands _ ih => exact .sequence (fun item hitem => (stands item hitem).liesIn) ih
  | mapping _ stands _ ih =>
    refine .mapping ?_ ih
    intro entry hentry
    obtain ⟨written, blanks, rest, -, -, -, hstands, -⟩ := stands entry hentry
    exact hstands.liesIn

/-- Every place in the line view of a source lies in the source. -/
theorem liesIn_of_sourceLines {source : List Char} {i : Nat} {before after : List Char}
    (h : (SourceLines.ofText source).lines[i]? = some (before ++ after)) :
    LiesIn source ⟨i + 1, byteLength before + 1⟩ := by
  rw [SourceLines.ofText, List.getElem?_map] at h
  obtain ⟨cut, hcut, htrim⟩ := Option.map_eq_some_iff.mp h
  obtain ⟨tail, hline⟩ := exists_line?_of_splitLines (p := (· == '\r')) (by decide) hcut
  rw [htrim] at hline
  refine ⟨_, hline, Nat.le_add_left _ _, ?_⟩
  simp only [byteLength_append]
  omega

/-- There is no playbook in nothing. -/
theorem Playbook.ne_nil_of_load {path content : String} {playbook : Playbook}
    (h : Playbook.load path content = .ok playbook) : content.toList ≠ [] := by
  intro hnil
  have hempty : Outline.scan content.toList = ⟨.empty, []⟩ := by
    rw [hnil]
    exact Outline.scan_eq_of_nodeAt (.nothing rfl)
  rcases load_cases h with ⟨hencrypted, -⟩ | hparse
  · rw [isEncryptedContent, hnil] at hencrypted
    cases hencrypted
  · obtain ⟨value, hbuild⟩ := exists_build_of_parse hparse
    obtain ⟨-, items, position, hroot, -⟩ := exists_blocksOf_of_build hbuild
    rw [hempty] at hroot
    cases hroot

namespace Registry

variable {settings : Settings} {path content : String} {playbook : Playbook}

/-- A finding is the finding of a rule about something that the rule says. -/
theorem exists_remark_of_mem_findingsAt {registry : Registry} {visit : Visit}
    {d : Diagnostic} (h : d ∈ registry.findingsAt settings path visit) :
    ∃ rule ∈ registry.rulesFor visit.part.kind,
      ∃ remark ∈ rule.remarks settings.conventions visit, d = rule.finding settings path remark := by
  obtain ⟨rule, hrule, hd⟩ := List.mem_flatMap.mp h
  unfold Rule.findings at hd
  split at hd
  · obtain ⟨remark, hremark, rfl⟩ := List.mem_map.mp (List.mem_filter.mp hd).1
    exact ⟨rule, hrule, remark, hremark, rfl⟩
  · cases hd

/-- What the rules find at a part is at the places of this part. -/
theorem findingsAt_inside {P : Position → Prop} {visit : Visit}
    (hvisit : visit.part.Everywhere P) {d : Diagnostic}
    (h : d ∈ builtin.findingsAt settings path visit) : P d.position := by
  obtain ⟨rule, hrule, remark, hremark, rfl⟩ := exists_remark_of_mem_findingsAt h
  exact Rule.builtin_pointsInside rule (List.mem_filter.mp hrule).1 P _ visit hvisit remark hremark

/-- What the rules find in a playbook is at the places on the walk over it. -/
theorem findings_inside {P : Position → Prop} (hvisits : PartsAt P playbook.visits)
    {d : Diagnostic} (h : d ∈ builtin.findings settings playbook) : P d.position := by
  obtain ⟨visit, hvisit, hd⟩ := List.mem_flatMap.mp h
  exact findingsAt_inside (hvisits visit hvisit) hd

end Registry

namespace Linter

/-- Every finding about the content of a file lies in that content. -/
theorem check_liesIn {settings : Settings} {linter : Linter} {path content : String}
    {report : Report} (accepted : ofSettings settings = .ok linter)
    (checked : linter.check path content = .ok report) :
    ∀ d ∈ report.diagnostics, LiesIn content.toList d.position := by
  obtain ⟨-, hregistry⟩ := eq_of_ofSettings_eq_ok accepted
  obtain ⟨playbook, hload, rfl⟩ := exists_load_of_check checked
  have hvisits : PartsAt (LiesIn content.toList) playbook.visits :=
    visits_everywhere hload (liesIn_start (Playbook.ne_nil_of_load hload))
      (fun _ _ _ h => liesIn_of_sourceLines h) (Outline.scan_placed _).everywhere
  intro d hd
  have hd := Report.mem_of_mem_sortedDiagnostics hd
  rw [hregistry] at hd
  exact Registry.findings_inside hvisits hd

/-- **Everything stands where it says.** Every node of the outline of a text, be
the text valid or not, stands in the text at its position; and every finding
about the content of a file, if the built-in rules find it at all, lies on a line
of that content, at most right behind the line's last byte. -/
theorem places_exist :
    (∀ source : List Char, (Outline.scan source).root.Placed source) ∧
      ∀ (settings : Settings) (linter : Linter) (path content : String) (report : Report),
        ofSettings settings = .ok linter → linter.check path content = .ok report →
          ∀ d ∈ report.diagnostics, LiesIn content.toList d.position :=
  ⟨Outline.scan_placed, fun _ _ _ _ _ accepted checked => check_liesIn accepted checked⟩

/-- A play with a blank before a colon: the finding is about the key, which
stands behind the dash. -/
theorem places_exist_hosts :
    ∃ (linter : Linter) (report : Report), ofSettings {} = .ok linter ∧
      linter.check "site.yml" "- hosts : all\n" = .ok report ∧
      report.diagnostics.map Diagnostic.position = [⟨1, 3⟩] ∧
      ∀ d ∈ report.diagnostics, LiesIn "- hosts : all\n".toList d.position := by
  let linter : Linter := ⟨{}, .builtin, by decide⟩
  have accepted : ofSettings {} = .ok linter := rfl
  have positions : (linter.check "site.yml" "- hosts : all\n").toOption.map
      (·.diagnostics.map Diagnostic.position) = some [⟨1, 3⟩] := by
    decide +kernel
  cases checked : linter.check "site.yml" "- hosts : all\n" with
  | error failure =>
    rw [checked] at positions
    cases positions
  | ok report =>
    rw [checked] at positions
    exact ⟨linter, report, accepted, checked, Option.some.inj positions,
      places_exist.2 {} linter "site.yml" "- hosts : all\n" report accepted checked⟩

end Linter

end PlaybookStyle
