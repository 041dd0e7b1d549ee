/-
What a file states, and what a configuration makes of it.

Some settings are one value that a later layer may replace: a `Choice`. A file
states a choice if its section for settings has the field, whatever the format of
the file. Between what a layer states and what it leaves out merging does not
tell, it only sees values: a value that is the default does not replace another.

* `mergeFile_stated` — the value of a choice when a file that states it is merged.
-/

import PlaybookStyle.Proofs.Configuration.Layers

namespace PlaybookStyle

/-! ### Choices -/

/-- A setting of one value that a later layer may replace. -/
inductive Choice where
  | minSeverity
  | extensions
  | failOn
  | vaultMarkers
deriving DecidableEq, Repr

namespace Choice

abbrev Value : Choice → Type
  | minSeverity => Severity
  | extensions => ExtensionPolicy
  | failOn => FailOn
  | vaultMarkers => List String

instance : (choice : Choice) → DecidableEq choice.Value
  | minSeverity => inferInstanceAs (DecidableEq Severity)
  | extensions => inferInstanceAs (DecidableEq ExtensionPolicy)
  | failOn => inferInstanceAs (DecidableEq FailOn)
  | vaultMarkers => inferInstanceAs (DecidableEq (List String))

/-- The name of its field in a file. -/
def name : Choice → String
  | minSeverity => "min_severity"
  | extensions => "extensions"
  | failOn => "fail_on"
  | vaultMarkers => "vault_markers"

/-- What settings say. -/
def of (s : Settings) : (choice : Choice) → choice.Value
  | minSeverity => s.minSeverity
  | extensions => s.extensions
  | failOn => s.failOn
  | vaultMarkers => s.vaultMarkers

def default (choice : Choice) : choice.Value := of {} choice

/-- How its field is read. -/
def read? {α : Type} [Configuration.Readable α] :
    (choice : Choice) → α → Option choice.Value
  | minSeverity => Configuration.word? Severity.ofName?
  | extensions => Configuration.word? ExtensionPolicy.ofName?
  | failOn => Configuration.word? FailOn.ofName?
  | vaultMarkers => Configuration.list? Configuration.text?

/-- Merging replaces a choice by any value but the default. -/
theorem of_merge (choice : Choice) (earlier later : Settings) :
    choice.of (earlier.merge later) =
      preferred choice.default (choice.of earlier) (choice.of later) := by
  cases choice <;> rfl

end Choice

namespace Configuration

variable {α : Type} [Readable α]

/-- What the value of a file states for a choice, if it has a field for it. -/
def stated? (value : α) (choice : Choice) : Option choice.Value := do
  let sections ← fields? ["lint", "colors", "logging"] value
  let lint ← sections.lookup "lint"
  let fields ← fields? settingsFields lint
  let field ← fields.lookup choice.name
  choice.read? field

/-- What a field reads as is what the settings of a file say. -/
theorem of_settings? {value : α} {s : Settings} (h : settings? value = some s)
    {fields : List (String × α)} (hfields : fields? settingsFields value = some fields)
    (choice : Choice) :
    field fields choice.name choice.read? choice.default = some (choice.of s) := by
  simp only [settings?, hfields, Option.bind_eq_bind, Option.bind_some, Option.bind_eq_some_iff,
    Option.pure_def, Option.some.injEq] at h
  obtain ⟨_, -, _, -, _, -, _, -, _, hseverity, _, hextensions, _, hfailOn, _, -, _, -, _,
    hmarkers, rfl⟩ := h
  cases choice with
  | minSeverity => exact hseverity
  | extensions => exact hextensions
  | failOn => exact hfailOn
  | vaultMarkers => exact hmarkers

/-- A layer says what its file states. -/
theorem of_stated? {value : α} {choice : Choice} {v : choice.Value}
    (h : stated? value choice = some v) {layer : Configuration}
    (decoded : ofValue? value = some layer) : choice.of layer.settings = v := by
  simp only [stated?, Option.bind_eq_bind, Option.bind_eq_some_iff] at h
  obtain ⟨sections, hsections, lint, hlint, fields, hfields, found, hfound, hread⟩ := h
  simp only [ofValue?, hsections, Option.bind_eq_bind, Option.bind_some, Option.bind_eq_some_iff,
    Option.pure_def, Option.some.injEq] at decoded
  obtain ⟨s, hs, -, -, -, -, rfl⟩ := decoded
  rw [field, hlint] at hs
  have hvalue := of_settings? hs hfields choice
  rw [field, hfound] at hvalue
  exact Option.some.inj (hvalue.symm.trans hread)

/-- What a text, read in a format, states for a choice. -/
def Format.stated? (content : String) (choice : Choice) : Format → Option choice.Value
  | toml => (Toml.read? content).bind (Configuration.stated? · choice)
  | yaml => (Yaml.Referring.read? content).bind (Configuration.stated? · choice)
  | json => (Json.read? content).bind (Configuration.stated? · choice)

/-- What the content of a file at a path states for a choice, in the first format in
which it is a configuration. -/
def fileStated? (path content : String) (choice : Choice) : Option choice.Value := do
  let format ← (formats path).find? fun format => (format.decode? content).isSome
  format.stated? content choice

theorem Format.of_stated? {content : String} {choice : Choice} {v : choice.Value}
    {format : Format} (h : format.stated? content choice = some v) {layer : Configuration}
    (decoded : format.decode? content = some layer) : choice.of layer.settings = v := by
  cases format <;>
  · obtain ⟨value, hvalue, hstated⟩ := Option.bind_eq_some_iff.mp h
    rw [decode?, hvalue, Option.bind_some] at decoded
    exact Configuration.of_stated? hstated decoded

/-- A file that states a choice is a configuration, and says what it states. -/
theorem exists_ofContent?_of_fileStated? {path content : String} {choice : Choice}
    {v : choice.Value} (h : fileStated? path content choice = some v) :
    ∃ layer, ofContent? path content = some layer ∧ choice.of layer.settings = v := by
  obtain ⟨format, hformat, hstated⟩ := Option.bind_eq_some_iff.mp h
  obtain ⟨hsome, before, after, hformats, refused⟩ := List.find?_eq_some_iff_append.mp hformat
  obtain ⟨layer, decoded⟩ := Option.isSome_iff_exists.mp hsome
  refine ⟨layer, ?_, Format.of_stated? hstated decoded⟩
  rw [ofContent?_eq_findSome?, List.findSome?_eq_some_iff]
  refine ⟨before, format, after, hformats, decoded, fun earlier hearlier => ?_⟩
  simpa using refused earlier hearlier

/-! ### Main statement -/

/-- **A stated choice.** Once a file that states a choice is merged, the choice is
what the file states, unless this is the default: then it is what it was. -/
theorem mergeFile_stated {disk : Disk} {path content : String} {choice : Choice}
    {v : choice.Value} (read : disk.read path = .ok content)
    (stated : fileStated? path content choice = some v) (earlier : Configuration) :
    ∃ merged, mergeFile disk earlier path = .ok merged ∧
      choice.of merged.settings =
        if v = choice.default then choice.of earlier.settings else v := by
  obtain ⟨layer, decoded, hv⟩ := exists_ofContent?_of_fileStated? stated
  refine ⟨earlier.merge layer, mergeFile_read read decoded earlier, ?_⟩
  refine (choice.of_merge earlier.settings layer.settings).trans ?_
  rw [hv, preferred]
  exact ite_not ..

/-- A severity that is stated takes the place of an earlier one. -/
theorem mergeFile_stated_warning :
    let content := "[lint]\nmin_severity = \"warning\"\n"
    let disk : Disk := ⟨.directory [("playstyle.toml", .file content.toUTF8.data.toList)], "/"⟩
    disk.read "playstyle.toml" = .ok content ∧
      fileStated? "playstyle.toml" content .minSeverity = some Severity.warning ∧
      ∃ merged, mergeFile disk { settings := { minSeverity := .error } } "playstyle.toml" =
        .ok merged ∧ merged.settings.minSeverity = .warning := by
  intro content disk
  have read : disk.read "playstyle.toml" = .ok content :=
    Disk.read_entry (by decide) List.lookup_cons_self
  have stated : fileStated? "playstyle.toml" content .minSeverity = some Severity.warning := by
    decide +kernel
  exact ⟨read, stated, mergeFile_stated read stated _⟩

/-- Not every stated choice stands: the default severity does not take the place of
one that an earlier file states. -/
theorem not_forall_stated : ¬∀ (disk : Disk) (paths : List String) (earlier : Configuration)
    (path content : String) (choice : Choice) (v : choice.Value),
    paths.foldlM (mergeFile disk) {} = .ok earlier → disk.read path = .ok content →
      fileStated? path content choice = some v →
        ∃ merged, mergeFile disk earlier path = .ok merged ∧ choice.of merged.settings = v := by
  intro h
  let first := "[lint]\nmin_severity = \"error\"\n"
  let second := "[lint]\nmin_severity = \"info\"\n"
  let disk : Disk := ⟨.directory [("playstyle.toml", .file first.toUTF8.data.toList),
    (".playstyle.toml", .file second.toUTF8.data.toList)], "/"⟩
  have hfirst : disk.read "playstyle.toml" = .ok first :=
    Disk.read_entry (by decide) List.lookup_cons_self
  have hsecond : disk.read ".playstyle.toml" = .ok second :=
    Disk.read_entry (by decide) rfl
  have hlayer : ofContent? "playstyle.toml" first =
      some { settings := { minSeverity := .error } } := by decide +kernel
  have hearlier : ["playstyle.toml"].foldlM (mergeFile disk) {} =
      .ok { settings := { minSeverity := .error } } := by
    rw [List.foldlM_cons, mergeFile_read hfirst hlayer]
    rfl
  obtain ⟨merged, hmerged, hinfo⟩ := h disk ["playstyle.toml"] _ ".playstyle.toml" second
    .minSeverity .info hearlier hsecond (by decide +kernel)
  have hsilent : ofContent? ".playstyle.toml" second = some {} := by decide +kernel
  rw [mergeFile_read hsecond hsilent, merge_default] at hmerged
  cases hmerged
  exact absurd hinfo (by decide)

end Configuration

end PlaybookStyle
