/-
Layers of configurations.

A layer is set over what the layers before it say. Most settings have the default
as the value that says nothing; colors and the log format do not, they are always
taken from the later layer.

* `merge_silent` — what a layer that says nothing leaves as it was, and what it
  does not.
* `merge_layers` — layers may be set over one another from the left or from the
  right, and what any number of them says in the end.
-/

import PlaybookStyle.Configuration.Load
import PlaybookStyle.Proofs.Setting.Grades

namespace PlaybookStyle

open Files

/-! ### Files of the root directory -/

namespace Disk

/-- A name by which a file of the root directory is found. -/
def PlainName (name : String) : Prop :=
  names name = [name] ∧ ¬(name = "" ∨ name = ".") ∧ name ≠ ".." ∧ '\x00' ∉ name.toList ∧
    name.utf8ByteSize ≤ maximalName ∧ ¬Text.startsWith name "/"

instance (name : String) : Decidable (PlainName name) := by
  unfold PlainName
  infer_instance

theorem resolve_entry {entries : List (String × FileTree)} {name : String} {content : List UInt8}
    (plain : PlainName name) (there : entries.lookup name = some (.file content)) :
    (⟨.directory entries, "/"⟩ : Disk).resolve name true =
      .ok ⟨.file content, [.directory entries]⟩ := by
  obtain ⟨hnames, hdot, hdots, hzero, hshort, hstart⟩ := plain
  have hempty : name.isEmpty = false := by simpa using fun h => hdot (.inl h)
  have hpath : ¬name.utf8ByteSize > maximalPath := by
    unfold maximalPath
    unfold maximalName at hshort
    omega
  have hroot : names "/" = ["", ""] := by decide
  rw [resolve, if_neg (by simp [hempty]), if_neg (by simpa using hzero), if_neg hpath]
  dsimp only
  rw [if_neg hstart, hroot, hnames]
  simp [go, hdot, hdots, Nat.not_lt.mpr hshort, there]

theorem read_entry {entries : List (String × FileTree)} {name content : String}
    (plain : PlainName name)
    (there : entries.lookup name = some (.file content.toUTF8.data.toList)) :
    (⟨.directory entries, "/"⟩ : Disk).read name = .ok content := by
  have htext : String.fromUTF8? ⟨content.toUTF8.data.toList.toArray⟩ = some content := by
    rw [Array.toArray_toList]
    exact dif_pos content.isValidUTF8
  rw [read, resolve_entry plain there]
  simp only [htext]

theorem exists?_of_read {disk : Disk} {path content : String} (h : disk.read path = .ok content) :
    disk.exists? path = true := by
  rw [exists?]
  unfold read at h
  cases hplace : disk.resolve path true with
  | error fault =>
    rw [hplace] at h
    cases h
  | ok place => rfl

end Disk

/-! ### Formats -/

namespace Configuration

/-- A format of configuration files. -/
inductive Format where
  | toml
  | yaml
  | json
deriving DecidableEq, Repr

/-- The configuration that a text says in a format. -/
def Format.decode? (content : String) : Format → Option Configuration
  | toml => (Toml.read? content).bind ofValue?
  | yaml => (Yaml.Referring.read? content).bind ofValue?
  | json => (Json.read? content).bind ofValue?

/-- The formats that are tried for a file, one after the other. -/
def formats (path : String) : List Format :=
  match Path.extension? path with
  | some "yml" | some "yaml" => [.yaml]
  | some "json" => [.json]
  | some "toml" => [.toml]
  | _ => [.toml, .yaml]

/-- A file says what it says in the first format in which it is a configuration. -/
theorem ofContent?_eq_findSome? (path content : String) :
    ofContent? path content = (formats path).findSome? (Format.decode? content) := by
  unfold ofContent? formats
  generalize Path.extension? path = extension?
  dsimp only
  split
  case h_5 =>
    change (Format.decode? content .toml).or (Format.decode? content .yaml) = _
    simp only [List.findSome?_cons]
    cases Format.decode? content .toml <;> cases Format.decode? content .yaml <;> rfl
  all_goals exact (List.findSome?_singleton).symm

end Configuration

/-! ### Single settings -/

/-- A setting with the default says nothing. -/
@[simp] theorem preferred_default {α : Type} [DecidableEq α] (default earlier : α) :
    preferred default earlier default = earlier := if_neg (not_not_intro rfl)

theorem preferred_assoc {α : Type} [DecidableEq α] (default a b c : α) :
    preferred default (preferred default a b) c = preferred default a (preferred default b c) := by
  by_cases hc : c = default
  · subst hc
    rw [preferred_default, preferred_default]
  · have hlast : ∀ x, preferred default x c = c := fun x => if_pos hc
    rw [hlast, hlast, hlast]

/-- A selection of rules replaces the one before it, unless it is empty. -/
theorem ifEmpty_assoc {α : Type} (a b c : List α) :
    (if c.isEmpty then (if b.isEmpty then a else b) else c) =
      if (if c.isEmpty then b else c).isEmpty then a else if c.isEmpty then b else c := by
  cases c <;> rfl

namespace Settings

/-- Settings that say nothing leave all settings as they were. -/
@[simp] theorem merge_default (s : Settings) : s.merge {} = s := by
  simp [merge]

theorem merge_assoc {b : Settings} (distinct : b.grades.rules.Nodup) (a c : Settings) :
    (a.merge b).merge c = a.merge (b.merge c) := by
  simp only [merge, joined_assoc, preferred_assoc, Grades.overlay_assoc distinct, ifEmpty_assoc,
    Option.or_assoc]
  rfl

end Settings

theorem Logging.merge_assoc (a b c : Logging) : (a.merge b).merge c = a.merge (b.merge c) := by
  simp only [merge, Option.or_assoc]

namespace Configuration

/-! ### A layer that says nothing -/

/-- What a layer that says nothing makes of a configuration: the colors and the log
format are the default ones again. -/
def silenced (c : Configuration) : Configuration :=
  { c with colors := {}, logging := { c.logging with format := .text } }

theorem merge_default (c : Configuration) : c.merge {} = c.silenced := by
  simp [merge, silenced, Logging.merge]

theorem silenced_eq_self_iff {c : Configuration} :
    c.silenced = c ↔ c.colors = {} ∧ c.logging.format = .text := by
  obtain ⟨settings, colors, level?, format⟩ := c
  constructor
  · intro h
    cases h
    exact ⟨rfl, rfl⟩
  · rintro ⟨rfl, rfl⟩
    rfl

/-- A path at which no file stands, or one that says nothing. -/
def IsSilent (disk : Disk) (path : String) : Prop :=
  disk.exists? path = true →
    ∃ content, disk.read path = .ok content ∧ ofContent? path content = some {}

theorem mergeFile_missing {disk : Disk} {path : String} (h : disk.exists? path = false)
    (c : Configuration) : mergeFile disk c path = .ok c := by
  rw [mergeFile, h]
  rfl

theorem mergeFile_read {disk : Disk} {path content : String} {layer : Configuration}
    (read : disk.read path = .ok content) (decoded : ofContent? path content = some layer)
    (c : Configuration) : mergeFile disk c path = .ok (c.merge layer) := by
  rw [mergeFile, if_pos (Disk.exists?_of_read read), read]
  simp only [decoded]

/-- Files that say nothing, one after another: the first of them that is there
brings back the default colors and log format, and no file changes anything else. -/
theorem foldlM_mergeFile_silent {disk : Disk} {paths : List String}
    (silent : ∀ path ∈ paths, IsSilent disk path) (c : Configuration) :
    paths.foldlM (mergeFile disk) c =
      .ok (if paths.any disk.exists? then c.silenced else c) := by
  induction paths generalizing c with
  | nil => rfl
  | cons path rest ih =>
    obtain ⟨hpath, hrest⟩ := List.forall_mem_cons.mp silent
    rw [List.foldlM_cons, List.any_cons]
    cases exist : disk.exists? path with
    | false =>
      rw [mergeFile_missing exist]
      exact ih hrest c
    | true =>
      obtain ⟨content, read, decoded⟩ := hpath exist
      rw [mergeFile_read read decoded, merge_default]
      refine (ih hrest c.silenced).trans ?_
      rw [Bool.true_or, if_pos rfl]
      split <;> rfl

/-! ### Grades of files -/

/-- No rule is graded twice. -/
def GradesOnce (c : Configuration) : Prop := c.settings.grades.rules.Nodup

instance (c : Configuration) : Decidable c.GradesOnce :=
  inferInstanceAs (Decidable (c.settings.grades.rules.Nodup))

theorem GradesOnce.merge {c : Configuration} (h : c.GradesOnce) (layer : Configuration) :
    (c.merge layer).GradesOnce :=
  Grades.nodup_rules_overlay h _

theorem settings?_gradesOnce {α : Type} [Readable α] {value : α} {s : Settings}
    (h : settings? value = some s) : s.grades.rules.Nodup := by
  simp only [settings?, Option.bind_eq_bind, Option.bind_eq_some_iff, Option.pure_def,
    Option.some.injEq] at h
  obtain ⟨-, -, pairs, -, -, -, -, -, -, -, -, -, -, -, -, -, -, -, -, -, -, -, rfl⟩ := h
  exact Grades.nodup_rules_ofList pairs

theorem ofValue?_gradesOnce {α : Type} [Readable α] {value : α} {layer : Configuration}
    (h : ofValue? value = some layer) : layer.GradesOnce := by
  simp only [ofValue?, Option.bind_eq_bind, Option.bind_eq_some_iff, Option.pure_def,
    Option.some.injEq] at h
  obtain ⟨fields, -, s, hs, -, -, -, -, rfl⟩ := h
  unfold field at hs
  split at hs
  · exact settings?_gradesOnce hs
  · cases hs
    exact List.nodup_nil

/-- A file grades no rule twice. -/
theorem ofContent?_gradesOnce {path content : String} {layer : Configuration}
    (h : ofContent? path content = some layer) : layer.GradesOnce := by
  rw [ofContent?_eq_findSome?] at h
  obtain ⟨format, -, hformat⟩ := List.exists_of_findSome?_eq_some h
  cases format with
  | toml =>
    obtain ⟨value, -, hvalue⟩ := Option.bind_eq_some_iff.mp hformat
    exact ofValue?_gradesOnce hvalue
  | yaml =>
    obtain ⟨value, -, hvalue⟩ := Option.bind_eq_some_iff.mp hformat
    exact ofValue?_gradesOnce hvalue
  | json =>
    obtain ⟨value, -, hvalue⟩ := Option.bind_eq_some_iff.mp hformat
    exact ofValue?_gradesOnce hvalue

/-! ### Layers one after another -/

/-- What layers come to, setting by setting. -/
structure SaidBy (layers : List Configuration) (c : Configuration) : Prop where
  skipRules : c.settings.skipRules = (layers.flatMap (·.settings.skipRules)).eraseDups
  skipCategories :
    c.settings.skipCategories = (layers.flatMap (·.settings.skipCategories)).eraseDups
  excludePaths : c.settings.excludePaths = (layers.flatMap (·.settings.excludePaths)).eraseDups
  /-- The last selection of rules that selects any. -/
  onlyRules : c.settings.onlyRules =
    ((layers.map (·.settings.onlyRules)).filter (!·.isEmpty)).getLast?.getD []
  /-- The graded rules in the order in which they were first named. -/
  graded : c.settings.grades.rules = (layers.flatMap (·.settings.grades.rules)).eraseDups
  /-- The grade of a rule in the last layer that has one for it. -/
  grade : ∀ rule, c.settings.grades.get? rule =
    (layers.filterMap (·.settings.grades.get? rule)).getLast?
  timeout? : c.settings.timeout? = (layers.filterMap (·.settings.timeout?)).getLast?
  level? : c.logging.level? = (layers.filterMap (·.logging.level?)).getLast?

/-- What stands last is what the last layer says that says anything. -/
theorem foldl_or {α γ : Type} (said? : γ → Option α) (layers : List γ) (earlier? : Option α) :
    layers.foldl (fun last? layer => (said? layer).or last?) earlier? =
      (layers.filterMap said?).getLast?.or earlier? := by
  induction layers generalizing earlier? with
  | nil => rfl
  | cons layer rest ih =>
    rw [List.foldl_cons, ih, List.filterMap_cons]
    cases said? layer with
    | none => rfl
    | some x => simp [List.getLast?_cons]

/-- The last list that is not empty stands. -/
theorem foldl_ifEmpty {α γ : Type} (list : γ → List α) (layers : List γ) (earlier : List α) :
    layers.foldl (fun last layer => if (list layer).isEmpty then last else list layer) earlier =
      ((layers.map list).filter (!·.isEmpty)).getLast?.getD earlier := by
  induction layers generalizing earlier with
  | nil => rfl
  | cons layer rest ih =>
    rw [List.foldl_cons, ih, List.map_cons, List.filter_cons]
    cases h : (list layer).isEmpty with
    | true => simp
    | false => simp [List.getLast?_cons]

section Layers

variable {α : Type} {layers : List Configuration}

/-- A setting that every layer changes in one way is so changed by the layers in turn. -/
theorem setting_foldl_merge (setting : Configuration → α) (change : α → Configuration → α)
    (merged : ∀ c layer : Configuration, setting (c.merge layer) = change (setting c) layer)
    (layers : List Configuration) (c : Configuration) :
    setting (layers.foldl merge c) = layers.foldl change (setting c) := by
  induction layers generalizing c with
  | nil => rfl
  | cons layer rest ih => rw [List.foldl_cons, ih, merged, List.foldl_cons]

/-- A setting that merging joins has every element of the layers where it came first. -/
theorem joined_foldl_merge [BEq α] [LawfulBEq α] (list : Configuration → List α)
    (merged : ∀ c layer : Configuration, list (c.merge layer) = joined (list c) (list layer))
    (default : list {} = []) :
    list (layers.foldl merge {}) = (layers.flatMap list).eraseDups := by
  rw [setting_foldl_merge list (fun joint layer => joined joint (list layer)) merged, foldl_joined,
    default, joined_nil_left]

/-- A setting that may be left out is what the last layer says that says anything. -/
theorem last_foldl_merge (said? : Configuration → Option α)
    (merged : ∀ c layer : Configuration, said? (c.merge layer) = (said? layer).or (said? c))
    (default : said? {} = none) :
    said? (layers.foldl merge {}) = (layers.filterMap said?).getLast? := by
  rw [setting_foldl_merge said? (fun last? layer => (said? layer).or last?) merged, foldl_or,
    default, Option.or_none]

theorem onlyRules_foldl_merge :
    (layers.foldl merge {}).settings.onlyRules =
      ((layers.map (·.settings.onlyRules)).filter (!·.isEmpty)).getLast?.getD [] := by
  rw [← foldl_ifEmpty]
  exact setting_foldl_merge (·.settings.onlyRules) _ (fun _ _ => rfl) layers {}

theorem grade_foldl_merge (once : ∀ layer ∈ layers, layer.GradesOnce)
    (rule : String) (c : Configuration) :
    (layers.foldl merge c).settings.grades.get? rule =
      (layers.filterMap (·.settings.grades.get? rule)).getLast?.or (c.settings.grades.get? rule) := by
  induction layers generalizing c with
  | nil => rfl
  | cons layer rest ih =>
    obtain ⟨hlayer, hrest⟩ := List.forall_mem_cons.mp once
    have hget : (c.merge layer).settings.grades.get? rule =
        (layer.settings.grades.get? rule).or (c.settings.grades.get? rule) :=
      Grades.get?_overlay hlayer _ rule
    rw [List.foldl_cons, ih hrest, hget, ← foldl_or, ← foldl_or, List.foldl_cons]

/-- What layers come to, set over the default one after another. -/
theorem foldl_merge_saidBy (once : ∀ layer ∈ layers, layer.GradesOnce) :
    SaidBy layers (layers.foldl merge {}) where
  skipRules := joined_foldl_merge (·.settings.skipRules) (fun _ _ => rfl) rfl
  skipCategories := joined_foldl_merge (·.settings.skipCategories) (fun _ _ => rfl) rfl
  excludePaths := joined_foldl_merge (·.settings.excludePaths) (fun _ _ => rfl) rfl
  onlyRules := onlyRules_foldl_merge
  graded := joined_foldl_merge (·.settings.grades.rules) (fun _ _ => Grades.rules_overlay _ _) rfl
  grade rule := (grade_foldl_merge once rule {}).trans Option.or_none
  timeout? := last_foldl_merge (·.settings.timeout?) (fun _ _ => rfl) rfl
  level? := last_foldl_merge (·.logging.level?) (fun _ _ => rfl) rfl

end Layers

/-! ### Main statements -/

/-- **A silent layer.** A layer that says nothing leaves every setting and the log
level as they were, but puts the colors and the log format back to the default
ones; so it changes nothing just where these are the default ones. The same goes
for any number of files that say nothing, or are not there. -/
theorem merge_silent (c : Configuration) :
    c.merge {} = c.silenced ∧ (c.merge {} = c ↔ c.colors = {} ∧ c.logging.format = .text) ∧
      ∀ (disk : Disk) (paths : List String), (∀ path ∈ paths, IsSilent disk path) →
        paths.foldlM (mergeFile disk) c =
          .ok (if paths.any disk.exists? then c.silenced else c) := by
  refine ⟨merge_default c, ?_, fun disk paths silent => foldlM_mergeFile_silent silent c⟩
  rw [merge_default]
  exact silenced_eq_self_iff

/-- A file without a setting takes the colors and the log format back. -/
theorem merge_silent_lint :
    let disk : Disk :=
      ⟨.directory [("playstyle.toml", .file "[lint]\n".toUTF8.data.toList)], "/"⟩
    let earlier : Configuration :=
      { settings := { minSeverity := .error }, colors := { error := "green" },
        logging := { level? := some "debug", format := .json } }
    (∀ path ∈ ["playstyle.toml"], IsSilent disk path) ∧
      ["playstyle.toml"].foldlM (mergeFile disk) earlier =
        .ok { settings := { minSeverity := .error }, logging := { level? := some "debug" } } := by
  intro disk earlier
  have read : disk.read "playstyle.toml" = .ok "[lint]\n" :=
    Disk.read_entry (by decide) List.lookup_cons_self
  have silent : ∀ path ∈ ["playstyle.toml"], IsSilent disk path := by
    rintro path hpath -
    rw [List.mem_singleton.mp hpath]
    exact ⟨_, read, by decide +kernel⟩
  refine ⟨silent, ((merge_silent earlier).2.2 disk _ silent).trans ?_⟩
  rw [List.any_cons, Disk.exists?_of_read read]
  rfl

theorem merge_assoc {b : Configuration} (once : b.GradesOnce) (a c : Configuration) :
    (a.merge b).merge c = a.merge (b.merge c) := by
  simp only [merge, Settings.merge_assoc once, Logging.merge_assoc]

/-- **Layers.** Layers may be set over one another from the left or from the right,
and any number of them, set over the default, come to what `SaidBy` says. That a
layer grades no rule twice holds of every file and of what is merged from such
layers. -/
theorem merge_layers :
    (∀ a b c : Configuration, b.GradesOnce → (a.merge b).merge c = a.merge (b.merge c)) ∧
      (∀ layers : List Configuration, (∀ layer ∈ layers, layer.GradesOnce) →
        SaidBy layers (layers.foldl merge {})) ∧
      (∀ path content layer, ofContent? path content = some layer → layer.GradesOnce) ∧
      ∀ a b : Configuration, a.GradesOnce → (a.merge b).GradesOnce :=
  ⟨fun a _ c once => merge_assoc once a c, fun _ once => foldl_merge_saidBy once,
    fun _ _ _ => ofContent?_gradesOnce, fun _ b once => once.merge b⟩

/-- A rule graded twice keeps its place and gets the later grade. -/
theorem merge_layers_regraded :
    let layer (skip : List String) (grades : Grades) : Configuration :=
      { settings := { skipRules := skip, grades } }
    let first := layer ["tabs", "tabs"] [("a", .info), ("b", .info)]
    let second := layer ["spaces", "tabs"] [("b", .error), ("c", .warning)]
    let third := layer [] [("a", .error)]
    (∀ one ∈ [first, second, third], one.GradesOnce) ∧
      (first.merge second).merge third = first.merge (second.merge third) ∧
      ([first, second, third].foldl merge {}).settings.skipRules = ["tabs", "spaces"] ∧
      ([first, second, third].foldl merge {}).settings.grades.get? "a" = some .error := by
  intro layer first second third
  have once : ∀ one ∈ [first, second, third], one.GradesOnce := by decide
  obtain ⟨hassoc, hsaid, -⟩ := merge_layers
  have said := hsaid _ once
  exact ⟨once, hassoc _ _ _ (once second (by simp)), said.skipRules.trans (by decide),
    (said.grade "a").trans (by decide)⟩

end Configuration

end PlaybookStyle
