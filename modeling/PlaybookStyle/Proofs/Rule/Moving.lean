/-
Rules and parts whose lines move.

A rule that looks at a part at a moved place says the same there
(`Rule.Follows`): its remarks move with the part. Two built-in rules read more
than places. The rules on blank lines look at the number of them before a part,
so the part has to keep it; and the rule on blocks names in its message the last
line of the element before, which moves too (`Remark.Moved`).
-/

import PlaybookStyle.Proofs.Playbook.Moving
import PlaybookStyle.Proofs.Playbook.Rows
import PlaybookStyle.Proofs.Rule.Places

namespace PlaybookStyle

open Playbook Text

/-- A remark whose line moves. -/
def Remark.moved (f : Nat → Nat) (remark : Remark) : Remark :=
  { remark with position := remark.position.moved f }

/-- What a rule says of a part, unless it is a document, moves with the part. -/
def Rule.Follows (rule : Rule) : Prop :=
  ∀ (r : Relocation) (conventions : Conventions) (visit : Visit), visit.part.kind ≠ .document →
    rule.remarks conventions (visit.moved r) =
      (rule.remarks conventions visit).map (Remark.moved r.line)

namespace Rule

section Remarks

variable (f : Nat → Nat)

/-! ### Values -/

theorem quoteRemark?_moved (s : Scalar) :
    quoteRemark? (s.moved f) = (quoteRemark? s).map (Remark.moved f) := by
  unfold quoteRemark?
  rw [style_moved, kind_moved]
  split
  case h_6 =>
    rw [apply_ite (Option.map (Remark.moved f))]
    rfl
  all_goals rfl

theorem booleanRemark?_moved (s : Scalar) :
    booleanRemark? (s.moved f) = (booleanRemark? s).map (Remark.moved f) := by
  unfold booleanRemark?
  dsimp only
  rw [apply_ite (Option.map (Remark.moved f)), apply_ite (Option.map (Remark.moved f))]
  rfl

theorem targetRemark?_moved (r : Relocation) (i : Include) :
    targetRemark? (i.moved r) = (targetRemark? i).map (Remark.moved r.line) := by
  unfold targetRemark?
  rw [apply_ite (Option.map (Remark.moved r.line))]
  rfl

theorem colonRemarks_moved (key : String) (position : Position) (spacing : KeySpacing) :
    colonRemarks key (position.moved f) spacing =
      (colonRemarks key position spacing).map (Remark.moved f) := by
  have hbefore : beforeColonRemark? key (position.moved f) spacing =
      (beforeColonRemark? key position spacing).map (Remark.moved f) := by
    unfold beforeColonRemark?
    split <;> rfl
  have hafter : afterColonRemark? key (position.moved f) spacing =
      (afterColonRemark? key position spacing).map (Remark.moved f) := by
    unfold afterColonRemark?
    repeat' split
    all_goals rfl
  unfold colonRemarks
  rw [hbefore, hafter, List.map_append, Option.toList_map, Option.toList_map]

/-! ### Parameters and directives -/

theorem moduleRemark?_moved (m : ModuleCall) :
    moduleRemark? (m.moved f) = (moduleRemark? m).map (Remark.moved f) := by
  unfold moduleRemark?
  dsimp only [ModuleCall.moved]
  cases m.args with
  | scalar s =>
    dsimp only [Value.moved]
    rw [apply_ite (Option.map (Remark.moved f))]
    rfl
  | _ => rfl

theorem roleRemark?_moved (r : Relocation) (role : Role) :
    roleRemark? (role.moved r) = (roleRemark? role).map (Remark.moved r.line) := by
  obtain ⟨position, endLine, blank, name?, form, entries, flow?⟩ := role
  unfold roleRemark?
  rw [apply_ite (Option.map (Remark.moved r.line))]
  cases name? <;> cases flow? <;> rfl

theorem directiveRemarks_moved (entries : List Entry) :
    (entries.map (entryMoved f)).filterMap directiveRemark? =
      (entries.filterMap directiveRemark?).map (Remark.moved f) := by
  refine filterMap_moved (fun e => ?_) entries
  unfold directiveRemark?
  rw [key_entryMoved, position_entryMoved, Option.map_map]
  rfl

/-! ### Order -/

theorem misplaced_moved {κ : Type} (rank : κ → Nat) (furthest? : Option (Nat × String))
    (fields : List (Playbook.Field κ)) :
    misplaced rank furthest? (fields.map (Field.moved f)) =
      (misplaced rank furthest? fields).map fun found => (found.1.moved f, found.2) := by
  induction fields generalizing furthest? with
  | nil => rfl
  | cons field rest ih =>
    have hkind : (field.moved f).kind = field.kind := rfl
    rw [List.map_cons]
    cases furthest? with
    | none =>
      rw [misplaced, misplaced, hkind]
      exact ih _
    | some furthest =>
      obtain ⟨reached, key⟩ := furthest
      rw [misplaced, misplaced, hkind]
      split
      · rw [ih, List.map_cons]
      · split
        · exact ih _
        · exact ih _

theorem unsorted_moved (keys : List (String × Position)) :
    unsorted (keys.map fun key => (key.1, key.2.moved f)) =
      (unsorted keys).map fun found => (found.1, found.2.1, found.2.2.moved f) := by
  fun_induction unsorted keys with
  | case1 first second rest h ih =>
    rw [List.map_cons] at ih ⊢
    rw [List.map_cons, unsorted, if_pos h, ih, List.map_cons]
  | case2 first second rest h ih =>
    rw [List.map_cons] at ih ⊢
    rw [List.map_cons, unsorted, if_neg h, ih]
  | case3 keys h =>
    match keys with
    | [] => rfl
    | [_] => rfl
    | first :: second :: rest => exact absurd rfl (h first second rest)

theorem keysOfKind_moved {κ : Type} [DecidableEq κ] (kind : κ) (fields : List (Playbook.Field κ)) :
    keysOfKind kind (fields.map (Field.moved f)) =
      (keysOfKind kind fields).map fun key => (key.1, key.2.moved f) := by
  unfold keysOfKind
  rw [List.filter_map, List.map_map, List.map_map]
  rfl

theorem parameterRemarks_moved (m : ModuleCall) :
    parameterRemarks (m.moved f) = (parameterRemarks m).map (Remark.moved f) := by
  have hkeys : ((m.moved f).params?.getD []).map (fun e => (e.key, e.position)) =
      ((m.params?.getD []).map fun e => (e.key, e.position)).map
        fun key => (key.1, key.2.moved f) := by
    rw [show (m.moved f).params? = m.params?.map (List.map (entryMoved f)) from
      mapping?_moved f m.args]
    cases m.params? with
    | none => rfl
    | some entries => simp
  unfold parameterRemarks
  rw [hkeys, unsorted_moved, List.map_map, List.map_map]
  rfl

/-! ### Names -/

theorem variableRemark?_moved (name : String) (position : Position) :
    variableRemark? name (position.moved f) =
      (variableRemark? name position).map (Remark.moved f) := by
  unfold variableRemark?
  split <;> rfl

theorem roleNameRemark?_moved (name : Scalar) :
    roleNameRemark? (name.moved f) = (roleNameRemark? name).map (Remark.moved f) := by
  unfold roleNameRemark?
  rw [apply_ite (Option.map (Remark.moved f))]
  rfl

theorem extensionRemark?_moved (policy : ExtensionPolicy) (path : String) (position : Position) :
    extensionRemark? policy path (position.moved f) =
      (extensionRemark? policy path position).map (Remark.moved f) := by
  unfold extensionRemark?
  repeat' split
  all_goals rfl

theorem vaultRemark?_moved (path : String) (position : Position) :
    vaultRemark? path (position.moved f) =
      (vaultRemark? path position).map (Remark.moved f) := by
  unfold vaultRemark?
  split <;> rfl

theorem namedFile?_moved (s : Scalar) :
    namedFile? (s.moved f) = (namedFile? s).map (Scalar.moved f) := by
  unfold namedFile?
  rw [apply_ite (Option.map (Scalar.moved f))]
  rfl

end Remarks

/-! ### Rules that follow the parts -/

theorem quoteStyle_follows : quoteStyle.Follows := by
  rintro r conventions ⟨part, previous?⟩ -
  cases part with
  | scalar s =>
    simp only [quoteStyle, Visit.moved, Part.moved, quoteRemark?_moved]
    rw [show (s.moved r.line).context = s.context from rfl]
    split
    · exact Option.toList_map
    · rfl
  | _ => rfl

theorem booleanLiteral_follows : booleanLiteral.Follows := by
  rintro r conventions ⟨part, previous?⟩ -
  cases part with
  | scalar s =>
    simp only [booleanLiteral, Visit.moved, Part.moved, booleanRemark?_moved]
    rw [show (s.moved r.line).kind = s.kind from rfl]
    split
    · exact Option.toList_map
    · rfl
  | _ => rfl

theorem keySpacing_follows : keySpacing.Follows := by
  rintro r conventions ⟨part, previous?⟩ -
  cases part with
  | entry e =>
    simp only [keySpacing, Visit.moved, Part.moved, key_entryMoved, position_entryMoved,
      spacing_entryMoved]
    exact colonRemarks_moved r.line e.key e.position e.spacing
  | module m => exact colonRemarks_moved r.line m.name m.position m.spacing
  | inclusion i => exact colonRemarks_moved r.line i.keyword i.keywordPosition i.spacing
  | _ => rfl

theorem mapSyntax_follows : mapSyntax.Follows := by
  rintro r conventions ⟨part, previous?⟩ -
  cases part with
  | module m =>
    simp only [mapSyntax, Visit.moved, Part.moved, moduleRemark?_moved]
    exact Option.toList_map
  | role applied =>
    simp only [mapSyntax, Visit.moved, Part.moved, roleRemark?_moved]
    exact Option.toList_map
  | _ => rfl

theorem sudoBecome_follows : sudoBecome.Follows := by
  rintro r conventions ⟨part, previous?⟩ -
  cases part with
  | play p => exact directiveRemarks_moved r.line p.entries
  | task t =>
    obtain ⟨position, endLine, blank, name?, module?, fields, entries, nested⟩ := t
    simp only [sudoBecome, Visit.moved, Part.moved, taskMoved]
    exact directiveRemarks_moved r.line entries
  | role applied => exact directiveRemarks_moved r.line applied.entries
  | inclusion i => exact directiveRemarks_moved r.line i.entries
  | _ => rfl

theorem hostBlockOrder_follows : hostBlockOrder.Follows := by
  rintro r conventions ⟨part, previous?⟩ -
  cases part with
  | play p =>
    simp only [hostBlockOrder, Visit.moved, Part.moved, playOrderRemarks, playOptionRemarks,
      Play.moved, misplaced_moved, keysOfKind_moved, unsorted_moved, List.map_map, List.map_append]
    rfl
  | _ => rfl

theorem taskFieldOrder_follows : taskFieldOrder.Follows := by
  rintro r conventions ⟨part, previous?⟩ -
  cases part with
  | task t =>
    obtain ⟨position, endLine, blank, name?, module?, fields, entries, nested⟩ := t
    have hmodule : (module?.map (ModuleCall.moved r.line)).toList.flatMap parameterRemarks =
        (module?.toList.flatMap parameterRemarks).map (Remark.moved r.line) := by
      cases module? with
      | none => rfl
      | some m => simp [parameterRemarks_moved]
    simp only [taskFieldOrder, Visit.moved, Part.moved, taskOrderRemarks, taskOptionRemarks,
      taskMoved, misplaced_moved, keysOfKind_moved, unsorted_moved, List.map_map, List.map_append,
      hmodule]
    rfl
  | _ => rfl

theorem includeQuoting_follows : includeQuoting.Follows := by
  rintro r conventions ⟨part, previous?⟩ -
  cases part with
  | inclusion i =>
    simp only [includeQuoting, Visit.moved, Part.moved, targetRemark?_moved]
    exact Option.toList_map
  | _ => rfl

theorem indentation_follows : indentation.Follows := by
  rintro r conventions ⟨part, previous?⟩ hpart
  cases part with
  | document p => exact absurd rfl hpart
  | _ => rfl

theorem variableNaming_follows : variableNaming.Follows := by
  rintro r conventions ⟨part, previous?⟩ -
  cases part with
  | entry e =>
    simp only [variableNaming, Visit.moved, Part.moved, assigns_entryMoved, key_entryMoved,
      position_entryMoved, variableRemark?_moved]
    split
    · exact Option.toList_map
    · rfl
  | scalar s =>
    have hremark := variableRemark?_moved r.line s.text s.position
    simp only [variableNaming, Visit.moved, Part.moved, Scalar.moved, hremark]
    split
    · exact Option.toList_map
    · rfl
  | _ => rfl

theorem roleNaming_follows : roleNaming.Follows := by
  rintro r conventions ⟨part, previous?⟩ -
  cases part with
  | role applied =>
    simp only [roleNaming, Visit.moved, Part.moved, Role.moved]
    cases applied.name? with
    | none => rfl
    | some name =>
      simp only [Option.map_some, Option.bind_some, roleNameRemark?_moved]
      exact Option.toList_map
  | _ => rfl

theorem jinjaSpacing_follows : jinjaSpacing.Follows := by
  rintro r conventions ⟨part, previous?⟩ -
  cases part with
  | scalar s =>
    simp only [jinjaSpacing, Visit.moved, Part.moved, Scalar.moved, List.map_map]
    rfl
  | _ => rfl

theorem fileExtension_follows : fileExtension.Follows := by
  rintro r conventions ⟨part, previous?⟩ hpart
  cases part with
  | document p => exact absurd rfl hpart
  | scalar s =>
    simp only [fileExtension, Visit.moved, Part.moved, namedFile?_moved]
    cases namedFile? s with
    | none => rfl
    | some file =>
      have hremark := extensionRemark?_moved r.line conventions.extensions file.text file.position
      simp only [Option.map_some, Scalar.moved, hremark]
      split
      · rfl
      · exact Option.toList_map
  | _ => rfl

theorem vaultFileExtension_follows : vaultFileExtension.Follows := by
  rintro r conventions ⟨part, previous?⟩ hpart
  cases part with
  | document p => exact absurd rfl hpart
  | scalar s =>
    simp only [vaultFileExtension, Visit.moved, Part.moved, namedFile?_moved]
    cases namedFile? s with
    | none => rfl
    | some file =>
      have hremark := vaultRemark?_moved r.line file.text file.position
      simp only [Option.map_some, Scalar.moved, hremark]
      split
      · exact Option.toList_map
      · rfl
  | _ => rfl

/-- Every built-in rule follows the parts, apart from the two on blank lines. -/
theorem follows_of_mem_builtin {rule : Rule} (h : rule ∈ builtin) :
    rule = blockSpacing ∨ rule = includeSpacing ∨ rule.Follows ∧ rule.id ≠ blockSpacing.id := by
  simp only [builtin, List.mem_cons, List.not_mem_nil, or_false] at h
  rcases h with rfl | rfl | rfl | rfl | rfl | rfl | rfl | rfl | rfl | rfl | rfl | rfl | rfl | rfl |
    rfl | rfl
  · exact .inr (.inr ⟨quoteStyle_follows, by decide⟩)
  · exact .inr (.inr ⟨booleanLiteral_follows, by decide⟩)
  · exact .inr (.inr ⟨keySpacing_follows, by decide⟩)
  · exact .inr (.inr ⟨mapSyntax_follows, by decide⟩)
  · exact .inr (.inr ⟨sudoBecome_follows, by decide⟩)
  · exact .inr (.inr ⟨hostBlockOrder_follows, by decide⟩)
  · exact .inr (.inr ⟨taskFieldOrder_follows, by decide⟩)
  · exact .inr (.inr ⟨includeQuoting_follows, by decide⟩)
  · exact .inr (.inl rfl)
  · exact .inl rfl
  · exact .inr (.inr ⟨indentation_follows, by decide⟩)
  · exact .inr (.inr ⟨variableNaming_follows, by decide⟩)
  · exact .inr (.inr ⟨roleNaming_follows, by decide⟩)
  · exact .inr (.inr ⟨jinjaSpacing_follows, by decide⟩)
  · exact .inr (.inr ⟨fileExtension_follows, by decide⟩)
  · exact .inr (.inr ⟨vaultFileExtension_follows, by decide⟩)

/-! ### Blank lines -/

/-- What the rule on blocks says of an element right behind one that ends on a line. -/
def spacingMessage (what : String) (line : Nat) : String :=
  s!"Missing blank line before {what} (previous item ends on line {line})"

section Separation

variable {r : Relocation}

theorem separated?_moved (part previous : Part) :
    separated? (part.moved r) (previous.moved r) =
      (separated? part previous).map fun found =>
        (found.1, r.blank found.2.2.line found.2.1, found.2.2.moved r.line) := by
  cases part with
  | task t =>
    obtain ⟨position, endLine, blank, name?, module?, fields, entries, nested⟩ := t
    simp only [Part.moved, taskMoved, separated?, Option.map_some]
  | inclusion i => cases previous <;> rfl
  | _ => rfl

theorem endLine_moved {part : Part} (h : part.kind ≠ .document) :
    (part.moved r).endLine = r.line part.endLine := by
  cases part with
  | document p => exact absurd rfl h
  | task t =>
    obtain ⟨position, endLine, blank, name?, module?, fields, entries, nested⟩ := t
    simp only [Part.moved, taskMoved, Part.endLine]
  | entry e =>
    obtain ⟨key, position, spacing, value, endLine, assigns⟩ := e
    simp only [Part.moved, entryMoved, Part.endLine]
  | _ => rfl

theorem separated?_line {part previous : Part} {what : String} {blank : Nat} {position : Position}
    (h : separated? part previous = some (what, blank, position)) : position = part.position := by
  unfold separated? at h
  split at h
  all_goals cases h <;> rfl

/-- The rule on blocks, at a part that keeps its number of blank lines. -/
theorem blockRemark?_moved {part previous : Part} (hprevious : previous.kind ≠ .document)
    (hblank : ∀ n, r.blank part.position.line n = n) :
    (blockRemark? part previous = none ∧ blockRemark? (part.moved r) (previous.moved r) = none) ∨
      ∃ position what line suggestion?,
        blockRemark? part previous = some ⟨position, spacingMessage what line, suggestion?⟩ ∧
          blockRemark? (part.moved r) (previous.moved r) =
            some ⟨position.moved r.line, spacingMessage what (r.line line), suggestion?⟩ := by
  unfold blockRemark?
  rw [separated?_moved, endLine_moved hprevious]
  cases hseparated : separated? part previous with
  | none => exact .inl ⟨rfl, rfl⟩
  | some found =>
    obtain ⟨what, blank, position⟩ := found
    obtain rfl := separated?_line hseparated
    simp only [Option.map_some, hblank]
    cases blank with
    | zero => exact .inr ⟨_, what, previous.endLine, _, rfl, rfl⟩
    | succ n => exact .inl ⟨rfl, rfl⟩

/-- The rule on includes, at an include that keeps its number of blank lines. -/
theorem includeRemark?_moved (hr : StrictMono r.line) {i : Include} (previous : Include)
    (hblank : ∀ n, r.blank i.position.line n = n) :
    includeRemark? (i.moved r) (previous.moved r) =
      (includeRemark? i previous).map (Remark.moved r.line) := by
  have hlong : ∀ i : Include, (i.moved r).isMultiline = i.isMultiline := fun i => by
    rw [Include.isMultiline, Include.isMultiline, Bool.eq_iff_iff, decide_eq_true_eq,
      decide_eq_true_eq]
    exact hr.lt_iff_lt
  have hcount : (i.moved r).blankLinesBefore = i.blankLinesBefore := hblank _
  unfold includeRemark?
  rw [hlong, hlong, hcount]
  split <;> rfl

end Separation

end Rule

/-! ### Findings -/

/-- A finding whose line moves; the message of the rule on blocks names a line,
which moves as well. -/
inductive Diagnostic.Moved (f : Nat → Nat) (d : Diagnostic) : Diagnostic → Prop
  | place (other : d.rule ≠ Rule.blockSpacing.id) :
      d.Moved f { d with position := d.position.moved f }
  | spacing {what : String} {line : Nat} (block : d.rule = Rule.blockSpacing.id)
      (message : d.message = Rule.spacingMessage what line) :
      d.Moved f
        { d with position := d.position.moved f, message := Rule.spacingMessage what (f line) }

section Findings

variable {r : Relocation} {visit : Visit} {rule : Rule}

theorem Part.kind_moved (part : Part) : (part.moved r).kind = part.kind := by
  cases part <;> rfl

/-- All remarks of a rule are taken alike: all become findings, or none does. -/
theorem Rule.findings_eq (settings : Settings) (path : String) (visit : Visit) :
    rule.findings settings path visit =
      if settings.runs rule.id rule.category &&
          settings.reports (settings.severityOf rule.id rule.severity) then
        (rule.remarks settings.conventions visit).map (rule.finding settings path)
      else [] := by
  unfold Rule.findings
  cases settings.runs rule.id rule.category with
  | false => rfl
  | true =>
    rw [if_pos rfl, Bool.true_and]
    split
    · rename_i hreports
      refine List.filter_eq_self.mpr fun finding hfinding => ?_
      obtain ⟨remark, -, rfl⟩ := List.mem_map.mp hfinding
      exact hreports
    · rename_i hreports
      refine List.filter_eq_nil_iff.mpr fun finding hfinding => ?_
      obtain ⟨remark, -, rfl⟩ := List.mem_map.mp hfinding
      exact hreports

/-- Findings are related as the remarks that they are made of. -/
theorem Rule.findings_forall₂ {R : Diagnostic → Diagnostic → Prop} {settings : Settings}
    {path : String} {visit' : Visit}
    (h : List.Forall₂ (fun a b => R (rule.finding settings path a) (rule.finding settings path b))
      (rule.remarks settings.conventions visit) (rule.remarks settings.conventions visit')) :
    List.Forall₂ R (rule.findings settings path visit) (rule.findings settings path visit') := by
  rw [findings_eq, findings_eq]
  split
  · rw [List.forall₂_map_left_iff, List.forall₂_map_right_iff]
    exact h
  · exact .nil

theorem Rule.Follows.findings_moved (follows : rule.Follows) (other : rule.id ≠ blockSpacing.id)
    (settings : Settings) (path : String) (hvisit : visit.part.kind ≠ .document) :
    List.Forall₂ (Diagnostic.Moved r.line) (rule.findings settings path visit)
      (rule.findings settings path (visit.moved r)) := by
  refine findings_forall₂ ?_
  rw [follows r settings.conventions visit hvisit, List.forall₂_map_right_iff, List.forall₂_same]
  exact fun remark _ => .place other

theorem Rule.blockSpacing_findings_moved (settings : Settings) (path : String)
    (hvisit : visit.Inner)
    (hblank : visit.previous? ≠ none → ∀ n, r.blank visit.part.position.line n = n) :
    List.Forall₂ (Diagnostic.Moved r.line) (blockSpacing.findings settings path visit)
      (blockSpacing.findings settings path (visit.moved r)) := by
  refine findings_forall₂ ?_
  obtain ⟨part, previous?⟩ := visit
  cases previous? with
  | none => exact .nil
  | some previous =>
    simp only [blockSpacing, Visit.moved, Option.map_some, Option.bind_some]
    rcases blockRemark?_moved (r := r) (hvisit.2 previous rfl) (hblank nofun) with
      ⟨h, hmoved⟩ | ⟨position, what, line, suggestion?, h, hmoved⟩
    · rw [h, hmoved]
      exact .nil
    · rw [h, hmoved]
      exact .cons (.spacing rfl rfl) .nil

theorem Rule.includeSpacing_findings_moved (settings : Settings) (path : String)
    (hr : StrictMono r.line)
    (hblank : visit.previous? ≠ none → ∀ n, r.blank visit.part.position.line n = n) :
    List.Forall₂ (Diagnostic.Moved r.line) (includeSpacing.findings settings path visit)
      (includeSpacing.findings settings path (visit.moved r)) := by
  refine findings_forall₂ ?_
  have hother : includeSpacing.id ≠ blockSpacing.id := by decide
  obtain ⟨part, previous?⟩ := visit
  cases part with
  | inclusion i =>
    cases previous? with
    | none => exact .nil
    | some previous =>
      cases previous with
      | inclusion previous =>
        have hremark := includeRemark?_moved hr previous (hblank nofun)
        simp only [includeSpacing, Visit.moved, Part.moved, Option.map_some, hremark,
          Option.toList_map, List.forall₂_map_right_iff, List.forall₂_same]
        exact fun remark _ => .place hother
      | _ => exact .nil
  | _ => exact .nil

end Findings

/-- **What the built-in rules find at a part moves with it.** A part that has another
before it has to keep its number of blank lines. -/
theorem Registry.findingsAt_moved {r : Relocation} (hr : StrictMono r.line) (settings : Settings)
    (path : String) {visit : Visit} (hvisit : visit.Inner)
    (hblank : visit.previous? ≠ none → ∀ n, r.blank visit.part.position.line n = n) :
    List.Forall₂ (Diagnostic.Moved r.line) (builtin.findingsAt settings path visit)
      (builtin.findingsAt settings path (visit.moved r)) := by
  unfold findingsAt
  rw [show (visit.moved r).part.kind = visit.part.kind from Part.kind_moved visit.part]
  refine forall₂_flatMap fun rule hrule => ?_
  rcases Rule.follows_of_mem_builtin (List.mem_filter.mp hrule).1 with rfl | rfl | ⟨follows, hother⟩
  · exact Rule.blockSpacing_findings_moved settings path hvisit hblank
  · exact Rule.includeSpacing_findings_moved settings path hr hblank
  · exact follows.findings_moved hother settings path hvisit.1

end PlaybookStyle
